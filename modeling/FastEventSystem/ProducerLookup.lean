import FastEventSystem.ProducerTable

/-!
# Every thread id keeps its producer

Each step of the search keeps the invariant of the tables, so a thread which was
given a producer finds it again, in the first table or an older one, and so does a
later thread with the same id. The number of keys in a table stays below three
quarters of its slots, by the ranks of the counted threads, so all searches end.
-/

namespace FastEventSystem.ProducerTable

open GuardedRuns LinearProbing LinkedNodes

variable {ι : Type*} [DecidableEq ι]

section Widening

variable {newCount rounds newCapacity : ℕ}

/-- The loop keeps powers of two. -/
theorem widen_power (b : ℕ) : ∃ c,widen newCount rounds (2^b)=2^c := by
  induction rounds generalizing b with
  | zero => exact ⟨b,rfl⟩
  | succ rounds ih =>
    rw [widen]
    split
    · rw [←pow_succ]
      exact ih (b+1)
    · exact ⟨b,rfl⟩

/-- It does not shrink. -/
theorem le_widen : newCapacity ≤ widen newCount rounds newCapacity := by
  induction rounds generalizing newCapacity with
  | zero => exact le_rfl
  | succ rounds ih =>
    rw [widen]
    split
    · exact (Nat.le_mul_of_pos_right _ Nat.two_pos).trans ih
    · exact le_rfl

/-- It ends with less than half of the slots needed, if the rounds suffice. -/
theorem lt_widen_of_lt (h : newCount < newCapacity*2^rounds/2) :
    newCount < widen newCount rounds newCapacity/2 := by
  induction rounds generalizing newCapacity with
  | zero => rwa [pow_zero,Nat.mul_one] at h
  | succ rounds ih =>
    rw [widen]
    split
    · refine ih ?_
      rwa [Nat.mul_assoc,←pow_succ']
    · omega

/-- They do. -/
theorem lt_widen (hpos : 0 < newCapacity) :
    newCount < widen newCount (newCount+1) newCapacity/2 := by
  refine lt_widen_of_lt ?_
  rw [pow_succ,←Nat.mul_assoc,Nat.mul_div_cancel _ Nat.two_pos]
  exact Nat.lt_two_pow_self.trans_le (Nat.le_mul_of_pos_left _ hpos)

end Widening

section Changes

variable {hashedId : ι → ℕ} {ranked : List ι} {owned : ι → Option ℕ} {list : List ℕ}
  {s s' : State ι} {i : ι}

/-- What a thread in a phase relies on. -/
theorem Sound.fits_of_phase {p : Phase} (h : Sound hashedId ranked owned list s)
    (hi : s.phase i=p) : p.Fits hashedId s i (owned i) (rank ranked i) := by
  rw [←hi]
  exact h.fits i

/-- Masks are remainders. -/
theorem Tables.mask_eq (h : Tables hashedId ranked owned s) {table : ℕ}
    (htable : table ≤ s.implicitProducerHash) (index : ℕ) :
    s.mask table index=index%s.capacity table := by
  obtain ⟨b,hb⟩ := h.power table htable
  rw [State.mask,hb,Nat.and_two_pow_sub_one_eq_mod]

/-- There are slots. -/
theorem Tables.capacity_pos (h : Tables hashedId ranked owned s) {table : ℕ}
    (htable : table ≤ s.implicitProducerHash) : 0 < s.capacity table := by
  obtain ⟨b,hb⟩ := h.power table htable
  rw [hb]
  exact Nat.two_pow_pos b

/-- Behind every other table but the last is the one before it. -/
theorem Tables.eq_succ_of_prev (h : Tables hashedId ranked owned s) {table older : ℕ}
    (htable : table ≤ s.implicitProducerHash) (hprev : s.prev table=some older) :
    table=older+1 := by
  cases table with
  | zero =>
    rw [h.prev_zero] at hprev
    cases hprev
  | succ table =>
    rw [h.prev_succ table htable] at hprev
    cases hprev
    rfl

/-- Newer tables have more room. -/
theorem Tables.room_le (h : Tables hashedId ranked owned s) {older newer : ℕ}
    (hle : older ≤ newer) (hnewer : newer ≤ s.implicitProducerHash) :
    s.room older ≤ s.room newer := by
  have hcapacity : s.capacity older ≤ s.capacity newer := by
    induction newer,hle using Nat.le_induction with
    | base => exact le_rfl
    | succ newer hle ih =>
      exact (ih (by omega)).trans (h.grows newer (by omega))
  exact Nat.add_le_add (Nat.div_le_div_right hcapacity) (Nat.div_le_div_right hcapacity)

/-- There is no key in a table which does not exist. -/
theorem Tables.key_none (h : Tables hashedId ranked owned s) {table : ℕ}
    (htable : s.implicitProducerHash < table) (k : ℕ) : s.key table k=none := by
  cases hk : s.key table k with
  | none => rfl
  | some j =>
    have hle := (h.key hk).1.trans (h.latest j)
    omega

/-- A search starts at the slot of the hash. -/
theorem Tables.at_start (h : Tables hashedId ranked owned s) {table : ℕ}
    (htable : table ≤ s.implicitProducerHash) :
    s.At hashedId i table (s.mask table (hashedId i)) := by
  refine ⟨0,?_,passed_zero⟩
  rw [h.mask_eq htable,Nat.add_zero]

/-- It goes on behind a slot which another thread has set. -/
theorem Tables.at_succ (h : Tables hashedId ranked owned s) {table k : ℕ}
    (htable : table ≤ s.implicitProducerHash) (hat : s.At hashedId i table k)
    (hk : s.key table k≠some i) :
    (s.learn i table k).At hashedId i table ((s.learn i table k).mask table (k+1)) := by
  obtain ⟨d,hd,hpassed⟩ := hat
  refine ⟨d+1,?_,Passed.succ (hpassed.mono fun l hl => ?_) ?_⟩
  · change s.mask table (k+1)=_
    rw [h.mask_eq htable,hd]
    exact slot_succ
  · exact ⟨(learn_known i table l).mpr (.inl hl.1),hl.2⟩
  · change (s.learn i table k).known i table ((hashedId i+d)%s.capacity table)=true ∧
      s.key table ((hashedId i+d)%s.capacity table)≠some i
    rw [←hd]
    exact ⟨(learn_known i table k).mpr (.inr ⟨rfl,rfl,rfl⟩),hk⟩

/-- What holds of a step which changes the tables. -/
structure Rehashes (hashedId : ι → ℕ) (ranked : List ι) (owned : ι → Option ℕ) (s s' : State ι)
    (i : ι) (q : Phase) : Prop where
  /-- The tables are in order. -/
  tables : Tables hashedId ranked owned s'
  /-- The producers stay. -/
  same : SameProducers s s'
  /-- The thread goes on. -/
  phase : s'.phase=Function.update s.phase i q
  /-- It had no producer in charge. -/
  charge : (s.phase i).charge=none
  /-- And has none. -/
  freed : q.charge=none
  /-- It visits none. -/
  visits : q.visits=none
  /-- It knows what its phase relies on. -/
  fits : q.Fits hashedId s' i (owned i) (rank ranked i)
  /-- So do the others. -/
  others : ∀ j,j≠i → (s.phase j).Fits hashedId s' j (owned j) (rank ranked j)
  /-- A thread which is in a table stays there. -/
  keys : ∀ {j table k},s.key table k=some j → s'.key table k=some j
  /-- If the thread owns a producer it is in a table. -/
  settled : owned i≠none → ∃ table k,s'.key table k=some i
  /-- It is counted as before. -/
  counted : q.counted=(s.phase i).counted
  /-- The count stays. -/
  count : s'.count=s.count
  /-- It has the flag, or not, as before. -/
  locks : q.locks=(s.phase i).locks
  /-- The flag stays. -/
  resizing : s'.resizing=s.resizing
  /-- What is returned is owned. -/
  returned : ∀ {j p},(j,some p)∈s'.returned → (j,some p)∈s.returned ∨ j=i ∧ owned i=some p

/-- A step of a thread which touches the tables and nothing of the producers. -/
theorem sound_tables {q : Phase} (h : Sound hashedId ranked owned list s)
    (hrehashes : Rehashes hashedId ranked owned s s' i q) :
    Sound hashedId ranked owned list s' := by
  obtain ⟨htables,hsame,hphase,hcharge,hq,hvisits,hfits,hothers,hkeys,hsettled,hcounted,hcount,
    hlocks,hresizing,hreturned⟩ := hrehashes
  have hself : s'.phase i=q := by rw [hphase,Function.update_self]
  have hother : ∀ j,j≠i → s'.phase j=s.phase j := fun j hj => by
    rw [hphase,Function.update_of_ne hj]
  obtain ⟨hflag,hsole⟩ := h.flag_kept hphase hlocks hresizing
  refine ⟨htables,h.supply.leave hsame hphase hcharge hq hvisits,fun j => ?_,fun j hj => ?_,
    fun j => ?_,h.nodup,hcount.trans h.count,hflag,hsole,fun hj => ?_⟩
  · by_cases hij : j=i
    · rw [hij,hself]
      exact hfits
    · rw [hother j hij]
      exact hothers j hij
  · by_cases hij : j=i
    · rw [hij] at hj ⊢
      exact .inr (hsettled hj)
    · rw [hother j hij]
      refine (h.settled j hj).imp id ?_
      rintro ⟨table,k,hk⟩
      exact ⟨table,k,hkeys hk⟩
  · by_cases hij : j=i
    · rw [hij,hself,hcounted]
      exact h.counted i
    · rw [hother j hij]
      exact h.counted j
  · rcases hreturned hj with hold|⟨rfl,hown⟩
    · exact h.returned hold
    · exact hown

/-- A larger table is put before the others. -/
theorem sound_allocate {mainHash newCount : ℕ} (h : Sound hashedId ranked owned list s)
    (hi : s.phase i=.allocating mainHash newCount) :
    Sound hashedId ranked owned list
      {(s.see i (s.implicitProducerHash+1)).goto i
          (.unlocking (s.implicitProducerHash+1) newCount) with
        implicitProducerHash := s.implicitProducerHash+1
        capacity := Function.update s.capacity (s.implicitProducerHash+1)
          (widen newCount (newCount+1) (s.capacity mainHash*2))
        prev := Function.update s.prev (s.implicitProducerHash+1) (some mainHash)
        key := Function.update s.key (s.implicitProducerHash+1) fun _ => none
        value := Function.update s.value (s.implicitProducerHash+1) fun _ => none} := by
  have ht := h.tables
  obtain ⟨hown,rfl,hrank⟩ := h.fits_of_phase hi
  -- Old tables are as before, and the new one has no keys.
  have hold : ∀ table ≤ s.implicitProducerHash,table≠s.implicitProducerHash+1 := fun _ _ => by omega
  have hcapacity : ∀ table ≤ s.implicitProducerHash,Function.update s.capacity
      (s.implicitProducerHash+1) (widen newCount (newCount+1) (s.capacity s.implicitProducerHash*2))
        table=s.capacity table := fun table hle => Function.update_of_ne (hold table hle) _ _
  have hkey : Function.update s.key (s.implicitProducerHash+1) (fun _ => none)=s.key := by
    funext table k
    by_cases htable : table=s.implicitProducerHash+1
    · rw [htable,Function.update_self,ht.key_none (Nat.lt_succ_self _) k]
    · rw [Function.update_of_ne htable]
  have hlatest : ∀ j,s.latest j ≤ Function.update s.latest i (s.implicitProducerHash+1) j := by
    intro j
    by_cases hij : j=i
    · rw [hij,Function.update_self]
      exact (ht.latest i).trans (Nat.le_succ _)
    · rw [Function.update_of_ne hij]
  refine sound_tables h {
      tables := ⟨fun table hle => ?_,fun table hlt => ?_,?_,fun table hlt => ?_,fun j => ?_,?_, fun
        {j table k} hj => ?_,?_,fun {j table k} hj => ?_⟩
      same := ⟨rfl,rfl,rfl,rfl,rfl,rfl,rfl⟩
      phase := rfl
      charge := by rw [hi]; rfl
      freed := rfl
      visits := rfl
      fits := ⟨hown,?_,hrank,?_⟩
      others := fun j hj => ?_
      keys := fun hj => ?_
      settled := absurd hown
      counted := by rw [hi]; rfl
      count := rfl
      locks := by rw [hi]; rfl
      resizing := rfl
      returned := .inl}
  · dsimp only
    rcases Nat.lt_or_eq_of_le hle with hlt|rfl
    · rw [hcapacity table (Nat.le_of_lt_succ hlt)]
      exact ht.power table (Nat.le_of_lt_succ hlt)
    · obtain ⟨b,hb⟩ := ht.power s.implicitProducerHash le_rfl
      rw [Function.update_self,hb,←pow_succ]
      exact widen_power (b+1)
  · dsimp only
    rw [hcapacity table (Nat.le_of_lt_succ hlt)]
    rcases Nat.lt_succ_iff_lt_or_eq.mp hlt with hlt|rfl
    · rw [hcapacity (table+1) hlt]
      exact ht.grows table hlt
    · rw [Function.update_self]
      exact (Nat.le_mul_of_pos_right _ Nat.two_pos).trans le_widen
  · dsimp only
    rw [Function.update_of_ne (Nat.succ_ne_zero _).symm]
    exact ht.prev_zero
  · dsimp only
    rcases Nat.lt_succ_iff_lt_or_eq.mp hlt with hlt|rfl
    · rw [Function.update_of_ne (by omega)]
      exact ht.prev_succ table hlt
    · rw [Function.update_self]
  · change Function.update s.latest i (s.implicitProducerHash+1) j ≤ s.implicitProducerHash+1
    by_cases hij : j=i
    · rw [hij,Function.update_self]
    · rw [Function.update_of_ne hij]
      exact (ht.latest j).trans (Nat.le_succ _)
  · dsimp only
    rw [hkey]
    exact ht.known
  · dsimp only at hj
    rw [hkey] at hj
    obtain ⟨hle,hmem,hlt,d,hk,hpassed⟩ := ht.key hj
    have hsame := hcapacity table (hle.trans (ht.latest j))
    refine ⟨hle.trans (hlatest j),hmem,?_,d,?_,?_⟩
    · rw [State.room]
      dsimp only
      rw [hsame]
      exact hlt
    · dsimp only
      rw [hsame]
      exact hk
    · dsimp only
      rw [hsame]
      exact hpassed
  · dsimp only
    rw [hkey]
    exact ht.unique
  · dsimp only at hj ⊢
    rw [hkey] at hj
    obtain ⟨hne,hor⟩ := ht.value hj
    have hle := (ht.key hj).1.trans (ht.latest j)
    have hij : j≠i := fun hc => hne (hc ▸ hown)
    refine ⟨hne,?_⟩
    rw [Function.update_of_ne (hold table hle)]
    change s.value table k=owned j ∨ Function.update s.phase i _ j=_
    rw [Function.update_of_ne hij]
    exact hor
  · change _ ≤ Function.update s.latest i (s.implicitProducerHash+1) i
    rw [Function.update_self]
  · dsimp only
    rw [Function.update_self]
    exact lt_widen (Nat.mul_pos (ht.capacity_pos le_rfl) Nat.two_pos)
  · refine (h.fits j).kept (fun hlocks => ?_)
      (fun table hle => hcapacity table (hle.trans (ht.latest j)))
      (fun table k => ?_) (fun _ _ hk => hk) (Function.update_of_ne hj _ _) le_rfl
    · exact absurd (h.sole hlocks (by rw [hi]; rfl)) hj
    · dsimp only
      rw [hkey]
  · dsimp only
    rw [hkey]
    exact hj

omit [DecidableEq ι] in
/-- The keys after one was set. -/
theorem set_key_cases {key : ℕ → ℕ → Option ι} {mainHash k table l : ℕ} {j : ι}
    (h : Function.update key mainHash (Function.update (key mainHash) k (some i)) table l=some j) :
    table=mainHash ∧ l=k ∧ j=i ∨ key table l=some j := by
  by_cases htable : table=mainHash
  · subst htable
    rw [Function.update_self] at h
    by_cases hl : l=k
    · rw [hl,Function.update_self] at h
      cases h
      exact .inl ⟨rfl,hl,rfl⟩
    · rw [Function.update_of_ne hl] at h
      exact .inr h
  · rw [Function.update_of_ne htable] at h
    exact .inr h

omit [DecidableEq ι] in
/-- A slot which was not free keeps its key. -/
theorem set_key_kept {key : ℕ → ℕ → Option ι} {mainHash k table l : ℕ} {j : ι}
    (hfree : key mainHash k=none) (h : key table l=some j) :
    Function.update key mainHash (Function.update (key mainHash) k (some i)) table l=some j := by
  by_cases htable : table=mainHash
  · subst htable
    rw [Function.update_self]
    by_cases hl : l=k
    · rw [hl,hfree] at h
      cases h
    · rwa [Function.update_of_ne hl]
  · rwa [Function.update_of_ne htable]

/-- A thread takes a free slot. -/
theorem sound_claim {mainHash k : ℕ} {value : Option ℕ} (h : Sound hashedId ranked owned list s)
    (hi : s.phase i=.claiming mainHash k value) (hfree : s.key mainHash k=none) :
    Sound hashedId ranked owned list
      {(s.learn i mainHash k).goto i (.storing mainHash k value) with
        key := Function.update s.key mainHash
          (Function.update (s.key mainHash) k (some i))} := by
  have ht := h.tables
  obtain ⟨rfl,hown,hmain,hroom,hnot,d,hd,hpassed⟩ := h.fits_of_phase hi
  have hmem : i∈ranked := (h.counted i).mpr (.inl hown)
  have hnew :
      Function.update s.key mainHash (Function.update (s.key mainHash) k (some i)) mainHash k=
      some i := by rw [Function.update_self,Function.update_self]
  have hgrows : ∀ j table l,s.known j table l=true →
      (s.learn i mainHash k).known j table l=true :=
    fun j table l hl => (learn_known j table l).mpr (.inl hl)
  refine sound_tables h {
      tables := ⟨ht.power,ht.grows,ht.prev_zero,ht.prev_succ,ht.latest, fun {j table l} hl => ?_,fun
        {j table l} hj => ?_,fun {j table l m} hl hm => ?_, fun {j table l} hj => ?_⟩
      same := ⟨rfl,rfl,rfl,rfl,rfl,rfl,rfl⟩
      phase := rfl
      charge := by rw [hi]; rfl
      freed := rfl
      visits := rfl
      fits := ⟨rfl,hnew⟩
      others := fun j hj => ?_
      keys := fun hj => set_key_kept hfree hj
      settled := fun _ => ⟨mainHash,k,hnew⟩
      counted := by rw [hi]; rfl
      count := rfl
      locks := by rw [hi]; rfl
      resizing := rfl
      returned := .inl}
  · dsimp only
    rcases (learn_known j table l).mp hl with hold|⟨-,rfl,rfl⟩
    · obtain ⟨m,hm⟩ := Option.ne_none_iff_exists'.mp (ht.known hold)
      rw [set_key_kept hfree hm]
      exact Option.some_ne_none m
    · rw [hnew]
      exact Option.some_ne_none i
  · rcases set_key_cases hj with ⟨rfl,rfl,rfl⟩|hold
    · -- The path to the new key is the one which the search has come.
      refine ⟨hmain,hmem,hroom,d,hd,Passed.succ (hpassed.mono fun m hm => hgrows _ _ _ hm.1) ?_⟩
      change (s.learn _ table _).known _ table ((hashedId _+d)%s.capacity table)=true
      rw [←hd]
      exact (learn_known _ table l).mpr (.inr ⟨rfl,rfl,rfl⟩)
    · obtain ⟨hle,hmemj,hlt,e,he,hpassed'⟩ := ht.key hold
      exact ⟨hle,hmemj,hlt,e,he,hpassed'.mono (hgrows j table)⟩
  · rcases set_key_cases hl with ⟨rfl,rfl,rfl⟩|hl'
    · rcases set_key_cases hm with ⟨-,rfl,-⟩|hm'
      · rfl
      · exact absurd hm' (hnot m)
    · rcases set_key_cases hm with ⟨rfl,rfl,rfl⟩|hm'
      · exact absurd hl' (hnot l)
      · exact ht.unique hl' hm'
  · change owned j≠none ∧ (s.value table l=owned j ∨ Function.update s.phase i _ j=_)
    rcases set_key_cases hj with ⟨rfl,rfl,rfl⟩|hold
    · rw [Function.update_self]
      exact ⟨hown,.inr rfl⟩
    · obtain ⟨hne,hor⟩ := ht.value hold
      refine ⟨hne,?_⟩
      by_cases hij : j=i
      · rw [hij,hi] at hor
        rw [hij]
        exact .inl (hor.resolve_right nofun)
      · rw [Function.update_of_ne hij]
        exact hor
  · refine (h.fits j).kept (fun _ => rfl) (fun _ _ => rfl)
      (fun table l => ⟨fun hl => ?_,fun hl => ?_⟩)
      (hgrows j) rfl le_rfl
    · exact (set_key_cases hl).resolve_left fun hc => hj hc.2.2
    · exact set_key_kept hfree hl

/-- A thread stores its producer beside its key, and returns it. -/
theorem sound_store {mainHash k : ℕ} {value : Option ℕ} (h : Sound hashedId ranked owned list s)
    (hi : s.phase i=.storing mainHash k value) :
    Sound hashedId ranked owned list {s.finish i value with
      value := Function.update s.value mainHash
        (Function.update (s.value mainHash) k value)} := by
  have ht := h.tables
  obtain ⟨rfl,hkey⟩ := h.fits_of_phase hi
  refine sound_tables h {
      tables := ⟨ht.power,ht.grows,ht.prev_zero,ht.prev_succ,ht.latest,ht.known,ht.key,
        ht.unique,fun {j table l} hj => ?_⟩
      same := ⟨rfl,rfl,rfl,rfl,rfl,rfl,rfl⟩
      phase := rfl
      charge := by rw [hi]; rfl
      freed := rfl
      visits := rfl
      fits := trivial
      others := fun j _ => ?_
      keys := fun hj => hj
      settled := fun _ => ⟨mainHash,k,hkey⟩
      counted := by rw [hi]; rfl
      count := rfl
      locks := by rw [hi]; rfl
      resizing := rfl
      returned := fun {j p} hj => ?_}
  · obtain ⟨hne,hor⟩ := ht.value hj
    refine ⟨hne,?_⟩
    change Function.update s.value mainHash _ table l=owned j ∨ Function.update s.phase i _ j=_
    by_cases hij : j=i
    · left
      rw [hij] at hj hor ⊢
      by_cases htable : table=mainHash
      · subst htable
        rw [ht.unique hj hkey,Function.update_self,Function.update_self]
      · rw [Function.update_of_ne htable]
        refine hor.resolve_right fun hc => ?_
        rw [hi] at hc
        cases hc
        exact htable rfl
    · rw [Function.update_of_ne hij]
      -- The slot is not the one of this thread.
      have hother :
          Function.update s.value mainHash (Function.update (s.value mainHash) k (owned i))
          table l=s.value table l := by
        by_cases htable : table=mainHash
        · subst htable
          rw [Function.update_self,Function.update_of_ne]
          rintro rfl
          exact hij (Option.some_injective ι (hj.symm.trans hkey))
        · rw [Function.update_of_ne htable]
      rw [hother]
      exact hor
  · exact (h.fits j).kept (fun _ => rfl) (fun _ _ => rfl) (fun _ _ => Iff.rfl)
      (fun _ _ hk => hk) rfl
      le_rfl
  · rcases List.mem_cons.mp hj with hnew|hold
    · obtain ⟨rfl,hvalue⟩ := Prod.mk.inj hnew
      exact .inr ⟨rfl,hvalue.symm⟩
    · exact .inl hold

/-- A thread which has a producer, or gives up without, returns. -/
theorem sound_finish {p : Phase} {value : Option ℕ} (h : Sound hashedId ranked owned list s)
    (hi : s.phase i=p) (hvalue : value=owned i) (hcharge : p.charge=none)
    (hcounted : p.counted=false) (hlocks : p.locks=false) (hplaced : p.placed=false)
    (hstoring : ∀ table k value,p≠.storing table k value) :
    Sound hashedId ranked owned list (s.finish i value) := by
  subst hi
  refine sound_turn h {
      same := ⟨rfl,rfl,rfl,rfl,rfl,rfl,rfl⟩
      phase := rfl
      supply := h.supply.leave ⟨rfl,rfl,rfl,rfl,rfl,rfl,rfl⟩ rfl hcharge rfl rfl
      storing := hstoring
      others := fun j _ => ⟨rfl,Iff.rfl,le_rfl⟩
      own := fun _ => ⟨rfl,rfl⟩
      fits := trivial
      settled := fun hown => .inr (h.in_table hplaced hown)
      counted := ?_
      nodup := h.nodup
      count := h.count
      flag := h.flag_kept rfl hlocks.symm rfl
      returned := fun {j p} hj => ?_}
  · have hold := h.counted i
    rw [hcounted] at hold
    exact hold
  · rcases List.mem_cons.mp hj with hnew|hold
    · obtain ⟨rfl,hp⟩ := Prod.mk.inj hnew
      exact .inr ⟨rfl,hvalue.symm.trans hp.symm⟩
    · exact .inl hold

/-- A thread which finds its key finds its producer. -/
theorem Sound.value_eq {table k : ℕ} (h : Sound hashedId ranked owned list s)
    (hkey : s.key table k=some i) (hstoring : ∀ value,s.phase i≠.storing table k value) :
    owned i≠none ∧ s.value table k=owned i := by
  obtain ⟨hne,hor⟩ := h.tables.value hkey
  exact ⟨hne,hor.resolve_right (hstoring _)⟩

/-- A thread which finds a free slot on its way is not in the table. -/
theorem Sound.absent_of_loads {mainHash hash index : ℕ} (h : Sound hashedId ranked owned list s)
    (hi : s.phase i=.probing mainHash hash index)
    (hloads : s.Loads i hash (s.mask hash index) none) : s.Absent i hash := by
  obtain ⟨-,-,-,d,hd,hpassed⟩ := h.fits_of_phase hi
  intro k hk
  obtain ⟨-,-,-,e,he,hpath⟩ := h.tables.key hk
  rcases Nat.lt_or_ge e d with hlt|hle
  · -- It would have passed its own key.
    rw [he] at hk
    exact (hpassed e hlt).2 hk
  · -- It knows this slot to be set, from when it took its own.
    have hknown := hpath d (Nat.lt_succ_of_le hle)
    rw [←hd] at hknown
    rcases hloads with hnone|⟨-,hunknown⟩
    · exact h.tables.known hknown hnone.symm
    · rw [hknown] at hunknown
      cases hunknown

/-- A thread which is in none of the tables it knows has no producer. -/
theorem Sound.own_none {mainHash index : ℕ} (h : Sound hashedId ranked owned list s)
    (hi : s.phase i=.probing mainHash 0 index)
    (hloads : s.Loads i 0 (s.mask 0 index) none) : owned i=none := by
  by_contra hown
  have hzero := h.absent_of_loads hi hloads
  obtain ⟨hmain,-,hnot,-⟩ := h.fits_of_phase hi
  rcases h.settled i hown with hplaced|⟨table,k,hk⟩
  · rw [hi] at hplaced
    cases hplaced
  · rcases Nat.eq_zero_or_pos table with rfl|hpos
    · exact hzero k hk
    · refine hnot table hpos ?_ k hk
      rw [hmain]
      exact (h.tables.key hk).1

/-- The thread is in the first table. -/
theorem sound_found {hash index : ℕ} (h : Sound hashedId ranked owned list s)
    (hi : s.phase i=.probing hash hash index) (hkey : s.key hash (s.mask hash index)=some i) :
    Sound hashedId ranked owned list (s.finish i (s.value hash (s.mask hash index))) := by
  obtain ⟨-,hvalue⟩ := h.value_eq hkey (by rw [hi]; nofun)
  exact sound_finish h hi hvalue rfl rfl rfl rfl nofun

/-- It is in an older one, and will be in the first. -/
theorem sound_foundBelow {mainHash hash index : ℕ} (h : Sound hashedId ranked owned list s)
    (hi : s.phase i=.probing mainHash hash index) (hbelow : hash≠mainHash)
    (hkey : s.key hash (s.mask hash index)=some i) :
    Sound hashedId ranked owned list
      (s.goto i (.placing mainHash (hashedId i) (s.value hash (s.mask hash index)))) := by
  have ht := h.tables
  obtain ⟨hmain,hhash,hnot,-⟩ := h.fits_of_phase hi
  have hmain' : mainHash ≤ s.implicitProducerHash := hmain.trans_le (ht.latest i)
  obtain ⟨hown,hvalue⟩ := h.value_eq hkey (by rw [hi]; nofun)
  have hroom := (ht.key hkey).2.2.1.trans_le (ht.room_le hhash hmain')
  exact sound_goto h hi {
      fits := ⟨hvalue,hown,hmain.le,hroom,
        hnot mainHash (lt_of_le_of_ne hhash hbelow) le_rfl,ht.at_start hmain'⟩,
      charge := rfl,visits := nofun,grabs := nofun,counted := rfl,locks := rfl,placed := .inr rfl,
      storing := nofun}

/-- It is not in the last one, so it has no producer. -/
theorem sound_missed {mainHash hash index : ℕ} (h : Sound hashedId ranked owned list s)
    (hi : s.phase i=.probing mainHash hash index) (hprev : s.prev hash=none)
    (hloads : s.Loads i hash (s.mask hash index) none) :
    Sound hashedId ranked owned list (s.goto i (.counting mainHash)) := by
  obtain ⟨hmain,hhash,-,-⟩ := h.fits_of_phase hi
  cases hash with
  | zero =>
    exact sound_goto h hi {
        fits := ⟨h.own_none hi hloads,hmain.le⟩,charge := rfl,visits := nofun,grabs := nofun,
        counted := rfl,locks := rfl,placed := .inl rfl,storing := nofun}
  | succ older =>
    rw [h.tables.prev_succ older (hhash.trans (hmain.trans_le (h.tables.latest i)))] at hprev
    cases hprev

/-- It is not in this one, and looks in the one before it. -/
theorem sound_descends {mainHash hash index older : ℕ} (h : Sound hashedId ranked owned list s)
    (hi : s.phase i=.probing mainHash hash index) (hprev : s.prev hash=some older)
    (hloads : s.Loads i hash (s.mask hash index) none) :
    Sound hashedId ranked owned list (s.goto i (.probing mainHash older (hashedId i))) := by
  have habsent := h.absent_of_loads hi hloads
  obtain ⟨hmain,hhash,hnot,-⟩ := h.fits_of_phase hi
  have hhash' := hhash.trans (hmain.trans_le (h.tables.latest i))
  obtain rfl := h.tables.eq_succ_of_prev hhash' hprev
  refine sound_goto h hi {
      fits := ⟨hmain,(Nat.le_succ older).trans hhash,fun table hlt hle => ?_,
        h.tables.at_start ((Nat.le_succ older).trans hhash')⟩,
      charge := rfl,visits := nofun,grabs := nofun,counted := rfl,locks := rfl,placed := .inl rfl,
      storing := nofun}
  rcases Nat.eq_or_lt_of_le (Nat.succ_le_of_lt hlt) with rfl|hlt
  · exact habsent
  · exact hnot table hlt hle

/-- It passes a slot of another thread. -/
theorem sound_passes {mainHash hash index : ℕ} (h : Sound hashedId ranked owned list s)
    (hi : s.phase i=.probing mainHash hash index) (hset : s.key hash (s.mask hash index)≠none)
    (hother : s.key hash (s.mask hash index)≠some i) :
    Sound hashedId ranked owned list ((s.learn i hash (s.mask hash index)).goto i
      (.probing mainHash hash (s.mask hash index+1))) := by
  obtain ⟨hmain,hhash,hnot,hat⟩ := h.fits_of_phase hi
  have hhash' := hhash.trans (hmain.trans_le (h.tables.latest i))
  exact sound_goto (sound_learn h hset) hi {
      fits := ⟨hmain,hhash,hnot,h.tables.at_succ hhash' hat hother⟩,charge := rfl,visits := nofun,
      grabs := nofun,counted := rfl,locks := rfl,placed := .inl rfl,storing := nofun}

/-- A thread which looks for a free slot passes one of another thread. -/
theorem sound_pass {mainHash k : ℕ} {value : Option ℕ} {p : Phase}
    (h : Sound hashedId ranked owned list s) (hi : s.phase i=p) (hset : s.key mainHash k≠none)
    (hclaiming : (Phase.claiming mainHash k value).Fits hashedId s i (owned i) (rank ranked i))
    (hcharge : p.charge=none) (hcounted : p.counted=false) (hlocks : p.locks=false)
    (hstoring : ∀ table k value,p≠.storing table k value) :
    Sound hashedId ranked owned list
      ((s.learn i mainHash k).goto i (.placing mainHash (k+1) value)) := by
  obtain ⟨hvalue,hown,hmain,hroom,hnot,hat⟩ := hclaiming
  exact sound_goto (sound_learn h hset) hi {
      fits := ⟨hvalue,hown,hmain,hroom,hnot,
        h.tables.at_succ (hmain.trans (h.tables.latest i)) hat (hnot k)⟩,
      charge := hcharge.symm,visits := nofun,grabs := nofun,counted := hcounted.symm,
      locks := hlocks.symm,placed := .inr rfl,storing := hstoring}

omit [DecidableEq ι] in
/-- The second test of the count. -/
theorem accept_spec (hashedId : ι → ℕ) {mainHash newCount r : ℕ} (hown : owned i=none)
    (hmain : mainHash ≤ s.latest i) (hrank : r ≤ newCount) :
    (s.accept mainHash newCount).Fits hashedId s i (owned i) r ∧
      (s.accept mainHash newCount).charge=none ∧ (s.accept mainHash newCount).visits=none ∧
        (s.accept mainHash newCount).counted=true ∧ (s.accept mainHash newCount).locks=false := by
  rw [State.accept]
  split
  · rename_i hlt
    exact ⟨⟨hown,hmain,hrank.trans_lt hlt⟩,rfl,rfl,rfl,rfl⟩
  · exact ⟨⟨hown,hrank⟩,rfl,rfl,rfl,rfl⟩

/-- The thread goes on in the list of producers, or to its end. -/
theorem sound_walk {p : Phase} {demand : Demand} {v : Option ℕ}
    (h : Sound hashedId ranked owned list s) (hi : s.phase i=p)
    (hfits : demand.Fits s i (owned i) (rank ranked i)) (hv : ∀ n∈v,n∈list)
    (hcharge : p.charge=none) (hcounted : p.counted= !demand.isExplicit) (hlocks : p.locks=false)
    (hplaced : p.placed=false) (hstoring : ∀ table k value,p≠.storing table k value) :
    Sound hashedId ranked owned list (s.goto i (walk demand v)) := by
  cases v with
  | none =>
    exact sound_goto h hi {
        fits := hfits,charge := hcharge.symm,visits := nofun,grabs := nofun,
        counted := hcounted.symm,locks := hlocks.symm,placed := .inl hplaced,storing := hstoring}
  | some ptr =>
    refine sound_goto h hi {
        fits := hfits,charge := hcharge.symm,visits := (fun hn => ?_),grabs := nofun,
        counted := hcounted.symm,locks := hlocks.symm,placed := .inl hplaced,storing := hstoring}
    cases hn
    exact hv ptr rfl

/-- The next producer of one on the list is on the list. -/
theorem Sound.next_mem {ptr : ℕ} (h : Sound hashedId ranked owned list s)
    (hptr : (s.phase i).visits=some ptr) : ∀ n∈s.next ptr,n∈list :=
  fun _ hn => h.supply.chain.next_mem (h.supply.visits hptr) hn

/-- A new producer is put on the list. -/
theorem sound_hook {demand : Demand} {producer : ℕ}
    (h : Sound hashedId ranked owned list s)
    (hi : s.phase i=.hooking demand producer s.producerListTail) :
    ∃ owned',Sound hashedId ranked owned' (producer::list)
      ((s.push producer s.producerListTail).supply hashedId i producer demand) := by
  have hcharge : (s.phase i).charge=some (producer,demand.isExplicit) := by rw [hi]; rfl
  have hstoring : ∀ table k value,s.phase i≠.storing table k value := by rw [hi]; nofun
  obtain ⟨-,hnot,hexplicit⟩ := h.supply.charge hcharge
  have hpushed : ∀ q : Phase,q.charge=none → q.visits=none →
      Supply owned (producer::list) ((s.push producer s.producerListTail).goto i q) :=
    fun q hq hv => h.supply.hook {
        charge := hcharge
        phase := rfl
        freed := hq
        visits := hv
        created := rfl
        isExplicit := rfl
        inactive := rfl
        next := rfl
        tail := rfl
        past := rfl
        tokens := rfl}
  have hfits := h.fits i
  rw [hi] at hfits
  cases demand with
  | thread mainHash =>
    obtain ⟨hown,hmain,hroom⟩ := hfits
    have hmem : i∈ranked := (h.counted i).mpr (.inr (by rw [hi]; rfl))
    refine ⟨Function.update owned i (some producer),sound_turn h {
        same := ⟨rfl,rfl,rfl,rfl,rfl,rfl,rfl⟩
        phase := rfl
        supply := (hpushed _ rfl rfl).give List.mem_cons_self hexplicit fun j hj => hnot
          (h.supply.own hj).1
        storing := hstoring
        others := fun j hj => ⟨Function.update_of_ne hj _ _,Iff.rfl,le_rfl⟩
        own := absurd hown
        fits := ?_
        settled := fun _ => .inl rfl
        counted := ?_
        nodup := h.nodup
        count := h.count
        flag := h.flag_kept rfl (by rw [hi]; rfl) rfl
        returned := .inl}⟩
    · rw [Function.update_self]
      exact ⟨rfl,Option.some_ne_none _,hmain,hroom,
        fun k hk => (h.tables.value hk).1 hown,h.tables.at_start (hmain.trans (h.tables.latest i))⟩
    · rw [Function.update_self]
      exact ⟨fun _ => .inl (Option.some_ne_none _),fun _ => hmem⟩
  | token =>
    have htokens : s.tokens producer=0 := by
      by_contra hc
      exact hnot (h.supply.tokens (Nat.pos_of_ne_zero hc)).1
    refine ⟨owned,sound_turn h {
        same := ⟨rfl,rfl,rfl,rfl,rfl,rfl,rfl⟩
        phase := rfl
        supply := (hpushed .outside rfl rfl).entrust List.mem_cons_self hexplicit htokens fun {p} hp
          => ⟨?_,hp⟩
        storing := hstoring
        others := fun j hj => ⟨rfl,Iff.rfl,le_rfl⟩
        own := fun _ => ⟨rfl,rfl⟩
        fits := trivial
        settled := fun hown => .inr (h.in_table (by rw [hi]; rfl) hown)
        counted := ?_
        nodup := h.nodup
        count := h.count
        flag := h.flag_kept rfl (by rw [hi]; rfl) rfl
        returned := .inl}⟩
    · rintro rfl
      exact hnot (h.supply.inactive hp).1
    · rw [h.counted i,hi]
      rfl

/-- A token takes a producer which was left behind. -/
theorem sound_grab {ptr : ℕ} (h : Sound hashedId ranked owned list s)
    (hi : s.phase i=.grabbing .token ptr) (hinactive : s.inactive ptr=true) :
    Sound hashedId ranked owned list
      (State.supply hashedId {s with inactive := Function.update s.inactive ptr false} i ptr
        .token) := by
  obtain ⟨hmem,hexplicit,htokens⟩ := h.supply.inactive hinactive
  have hsupply : Supply owned list (s.goto i .outside) :=
    h.supply.leave ⟨rfl,rfl,rfl,rfl,rfl,rfl,rfl⟩ rfl (by rw [hi]; rfl) rfl rfl
  refine sound_turn h {
      same := ⟨rfl,rfl,rfl,rfl,rfl,rfl,rfl⟩
      phase := rfl
      supply := hsupply.entrust hmem hexplicit htokens fun {p} hp => ?_
      storing := by rw [hi]; nofun
      others := fun j hj => ⟨rfl,Iff.rfl,le_rfl⟩
      own := fun _ => ⟨rfl,rfl⟩
      fits := trivial
      settled := fun hown => .inr (h.in_table (by rw [hi]; rfl) hown)
      counted := ?_
      nodup := h.nodup
      count := h.count
      flag := h.flag_kept rfl (by rw [hi]; rfl) rfl
      returned := .inl}
  · change Function.update s.inactive ptr false p=true at hp
    by_cases hne : p=ptr
    · rw [hne,Function.update_self] at hp
      cases hp
    · rw [Function.update_of_ne hne] at hp
      exact ⟨hne,hp⟩
  · rw [h.counted i,hi]
    rfl

/-- A thread takes none: those which were left behind are for tokens. -/
theorem Sound.inactive_of_grabbing {mainHash ptr : ℕ} (h : Sound hashedId ranked owned list s)
    (hi : s.phase i=.grabbing (.thread mainHash) ptr) : s.inactive ptr=false := by
  cases hinactive : s.inactive ptr with
  | false => rfl
  | true =>
    have hexplicit := (h.supply.inactive hinactive).2.1
    rw [h.supply.grabs hi] at hexplicit
    cases hexplicit

/-- What holds of a step which changes the producers only. -/
structure Produces (hashedId : ι → ℕ) (ranked : List ι) (owned : ι → Option ℕ) (list : List ℕ)
    (s s' : State ι) (i : ι) (p q : Phase) : Prop where
  /-- The thread goes on. -/
  phase : s'.phase=Function.update s.phase i q
  /-- The producers are in order. -/
  supply : Supply owned list s'
  /-- The thread knows what its phase relies on. -/
  fits : q.Fits hashedId s i (owned i) (rank ranked i)
  /-- The tables stay. -/
  same : SameTables s s'
  /-- The count stays. -/
  count : s'.count=s.count
  /-- So does the flag. -/
  resizing : s'.resizing=s.resizing
  /-- Nothing is returned. -/
  returned : s'.returned=s.returned
  /-- The thread is counted as before. -/
  counted : q.counted=p.counted
  /-- It has the flag, or not, as before. -/
  locks : q.locks=p.locks
  /-- Its producer was not in a table. -/
  placed : p.placed=false
  /-- It was not about to store it. -/
  storing : ∀ table k value,p≠.storing table k value

/-- A thread works on a new producer. -/
theorem sound_produce {p q : Phase} (h : Sound hashedId ranked owned list s) (hi : s.phase i=p)
    (hproduces : Produces hashedId ranked owned list s s' i p q) :
    Sound hashedId ranked owned list s' := by
  obtain ⟨hphase,hsupply,hfits,hsame,hcount,hresizing,hreturned,hcounted,hlocks,hplaced,
    hstoring⟩ := hproduces
  subst hi
  refine sound_turn h {
      same := hsame
      phase := hphase
      supply := hsupply
      storing := hstoring
      others := fun j _ => ⟨rfl,Iff.rfl,le_rfl⟩
      own := fun _ => ⟨rfl,rfl⟩
      fits := hfits
      settled := fun hown => .inr (h.in_table hplaced hown)
      counted := ?_
      nodup := h.nodup
      count := hcount.trans h.count
      flag := h.flag_kept hphase hlocks hresizing
      returned := fun {j p} hj => ?_}
  · rw [hcounted]
    exact h.counted i
  · rw [hreturned] at hj
    exact .inl hj

/-- A token goes away. -/
theorem sound_destroy {producer : ℕ} (h : Sound hashedId ranked owned list s)
    (htokens : 0 < s.tokens producer) :
    Sound hashedId ranked owned list {s with
      tokens := Function.update s.tokens producer (s.tokens producer-1)
      inactive := Function.update s.inactive producer true} := by
  have ht := h.tables
  exact ⟨⟨ht.power,ht.grows,ht.prev_zero,ht.prev_succ,ht.latest,ht.known,ht.key,ht.unique,ht.value⟩,
    h.supply.abandon htokens,fun j => (h.fits j).of_sameTables ⟨rfl,rfl,rfl,rfl,rfl,rfl,rfl⟩,
    h.settled,h.counted,h.nodup,h.count,h.flag,h.sole,h.returned⟩

/-- Every step keeps the invariant. -/
theorem sound_step {a : Act ι} (h : Sound hashedId ranked owned list s)
    (hn : next hashedId s a=some s') :
    ∃ ranked' owned' list',Sound hashedId ranked' owned' list' s' := by
  have ht := h.tables
  cases next_effect hn with
  | enters hi => exact ⟨_,_,_,sound_goto h hi {
      fits := trivial,charge := rfl,visits := nofun,grabs := nofun,counted := rfl,locks := rfl,
      placed := .inl rfl,storing := nofun}⟩
  | @starts i table hi hlatest hhash =>
    have hsee := Function.update_self i table s.latest
    have hat : (s.see i table).At hashedId i table ((s.see i table).mask table (hashedId i)) :=
      (ht.at_start hhash).kept rfl (fun _ => Iff.rfl) fun _ hk => hk
    exact ⟨_,_,_,sound_goto (sound_see h hlatest hhash (by rw [hi]; trivial)) hi {
        fits := ⟨hsee.symm,le_rfl,fun _ hlt hle => absurd hle (Nat.not_le_of_lt hlt),hat⟩,
        charge := rfl,visits := nofun,grabs := nofun,counted := rfl,locks := rfl,
        placed := .inl rfl,storing := nofun}⟩
  | @restarts i table newCount hi hlatest hhash =>
    have hsee := Function.update_self i table s.latest
    have hfits := h.fits_of_phase hi
    exact ⟨_,_,_,sound_goto (sound_see h hlatest hhash (by rw [hi]; exact hfits)) hi {
        fits := ⟨hfits.1,hsee.ge,hfits.2⟩,charge := rfl,visits := nofun,grabs := nofun,
        counted := rfl,locks := rfl,placed := .inl rfl,storing := nofun}⟩
  | found hi hkey => exact ⟨_,_,_,sound_found h hi hkey⟩
  | foundBelow hi hbelow hkey => exact ⟨_,_,_,sound_foundBelow h hi hbelow hkey⟩
  | missed hi hprev hloads => exact ⟨_,_,_,sound_missed h hi hprev hloads⟩
  | descends hi hprev hloads => exact ⟨_,_,_,sound_descends h hi hprev hloads⟩
  | passes hi hset hother => exact ⟨_,_,_,sound_passes h hi hset hother⟩
  | aims hi =>
    have hfits := h.fits_of_phase hi
    exact ⟨_,_,_,sound_goto h hi {
        fits := hfits,charge := rfl,visits := nofun,grabs := nofun,counted := rfl,locks := rfl,
        placed := .inr rfl,storing := nofun}⟩
  | avoids hi hset =>
    have hfits := h.fits_of_phase hi
    exact ⟨_,_,_,sound_pass h hi hset hfits rfl rfl rfl nofun⟩
  | draws hi => exact ⟨_,_,_,sound_draw h hi⟩
  | locks hi hfree => exact ⟨_,_,_,sound_lock h hi hfree⟩
  | accepts hi hset =>
    obtain ⟨hown,hmain,hrank⟩ := h.fits_of_phase hi
    obtain ⟨hq,hcharge,hvisits,hcounted,hlocks⟩ := accept_spec hashedId hown hmain hrank
    refine ⟨_,_,_,sound_goto h hi {
        fits := hq,charge := hcharge,visits := ?_,grabs := ?_,counted := hcounted,locks := hlocks,
        placed := .inl rfl,storing := nofun}⟩
    · rw [hvisits]
      nofun
    · intro demand n hc
      rw [hc] at hvisits
      cases hvisits
  | @small i newCount hi =>
    have hfits := h.fits_of_phase hi
    exact ⟨_,_,_,sound_goto (sound_see h (ht.latest i) le_rfl (by rw [hi]; exact hfits)) hi {
        fits := ⟨hfits.1,rfl,hfits.2⟩,charge := rfl,visits := nofun,grabs := nofun,counted := rfl,
        locks := rfl,placed := .inl rfl,storing := nofun}⟩
  | @large i newCount hi hlt =>
    have hsee := Function.update_self i s.implicitProducerHash s.latest
    have hfits := h.fits_of_phase hi
    exact ⟨_,_,_,sound_goto (sound_see h (ht.latest i) le_rfl (by rw [hi]; exact hfits)) hi {
        fits := ⟨hfits.1,hsee.ge,hfits.2,hlt⟩,charge := rfl,visits := nofun,grabs := nofun,
        counted := rfl,locks := rfl,placed := .inl rfl,storing := nofun}⟩
  | allocates hi => exact ⟨_,_,_,sound_allocate h hi⟩
  | unable hi =>
    exact ⟨_,_,_,sound_discount h (h.fits_of_phase hi).1 (by rw [hi]; rfl) (by rw [hi]; rfl)
      (by rw [hi]; nofun) (by rw [hi]; rfl) (.inl rfl) id⟩
  | undoes hi =>
    refine ⟨_,_,_,sound_clear h {
        own := h.fits_of_phase hi
        locks := by rw [hi]; rfl
        charge := by rw [hi]; rfl
        storing := by rw [hi]; nofun
        unlocked := rfl
        freed := rfl
        visits := rfl
        counted := by rw [hi]; rfl
        fits := trivial
        returned := fun hj => ?_}⟩
    exact (List.mem_cons.mp hj).resolve_left nofun
  | unlocks hi =>
    obtain ⟨hown,hmain,hrank,-⟩ := h.fits_of_phase hi
    obtain ⟨hq,hcharge,hvisits,hcounted,hlocks⟩ := accept_spec hashedId hown hmain hrank
    exact ⟨_,_,_,sound_clear h {
        own := hown
        locks := by rw [hi]; rfl
        charge := by rw [hi]; rfl
        storing := by rw [hi]; nofun
        unlocked := hlocks
        freed := hcharge
        visits := hvisits
        counted := by rw [hi,hcounted]; rfl
        fits := hq
        returned := id}⟩
  | lists hi hseen =>
    refine ⟨_,_,_,sound_walk h hi (h.fits_of_phase hi) (fun n hn => ?_) rfl rfl rfl rfl nofun⟩
    cases hn
    exact h.supply.seen hseen
  | chains hi =>
    have hfits := h.fits_of_phase hi
    exact ⟨_,_,_,sound_goto h hi {
        fits := hfits,charge := rfl,visits := nofun,grabs := nofun,counted := rfl,locks := rfl,
        placed := .inl rfl,storing := nofun}⟩
  | fits hi hkind =>
    have hfits := h.fits_of_phase hi
    refine ⟨_,_,_,sound_goto h hi {
        fits := hfits,charge := rfl,visits := (fun hn => ?_),grabs := (fun hn => ?_),
        counted := rfl,locks := rfl,placed := .inl rfl,storing := nofun}⟩
    · cases hn
      exact h.supply.visits (by rw [hi]; rfl)
    · cases hn
      exact hkind
  | skips hi =>
    exact ⟨_,_,_,sound_walk h hi (h.fits_of_phase hi) (h.next_mem (by rw [hi]; rfl)) rfl rfl rfl rfl
      nofun⟩
  | recycles hi hinactive =>
    rw [h.inactive_of_grabbing hi] at hinactive
    cases hinactive
  | reuses hi hinactive => exact ⟨_,_,_,sound_grab h hi hinactive⟩
  | misses hi =>
    exact ⟨_,_,_,sound_walk h hi (h.fits_of_phase hi) (h.next_mem (by rw [hi]; rfl)) rfl rfl rfl rfl
      nofun⟩
  | refunds hi => exact (h.fits_of_phase hi).elim
  | fails hi =>
    refine ⟨_,_,_,sound_discount h (h.fits_of_phase hi) (by rw [hi]; rfl) (by rw [hi]; rfl)
      (by rw [hi]; nofun) (by rw [hi]; rfl) (.inr rfl) fun hj => ?_⟩
    exact (List.mem_cons.mp hj).resolve_left nofun
  | creates hi =>
    have hfits := h.fits_of_phase hi
    exact ⟨_,_,_,sound_produce h hi {
        phase := rfl
        supply := h.supply.create {
            phase := rfl
            created := rfl
            isExplicit := rfl
            inactive := rfl
            next := rfl
            tail := rfl
            past := rfl
            tokens := rfl}
        fits := hfits
        same := ⟨rfl,rfl,rfl,rfl,rfl,rfl,rfl⟩
        count := rfl
        resizing := rfl
        returned := rfl
        counted := rfl
        locks := rfl
        placed := rfl
        storing := nofun}⟩
  | lacks hi =>
    exact ⟨_,_,_,sound_goto h hi {
        fits := (h.fits_of_phase hi).1,charge := rfl,visits := nofun,grabs := nofun,
        counted := rfl,locks := rfl,placed := .inl rfl,storing := nofun}⟩
  | invalid hi => exact ⟨_,_,_,sound_goto h hi {
      fits := trivial,charge := rfl,visits := nofun,grabs := nofun,counted := rfl,locks := rfl,
      placed := .inl rfl,storing := nofun}⟩
  | gives hi =>
    obtain ⟨owned',hs⟩ := sound_hook h hi
    exact ⟨_,owned',_,hs⟩
  | entrusts hi =>
    obtain ⟨owned',hs⟩ := sound_hook h hi
    exact ⟨_,owned',_,hs⟩
  | relinks hi =>
    have hfits := h.fits_of_phase hi
    exact ⟨_,_,_,sound_produce h hi {
        phase := rfl
        supply := h.supply.relink (by rw [hi]; rfl) rfl rfl rfl rfl ⟨rfl,rfl,rfl,rfl,rfl,rfl,rfl⟩
        fits := hfits
        same := ⟨rfl,rfl,rfl,rfl,rfl,rfl,rfl⟩
        count := rfl
        resizing := rfl
        returned := rfl
        counted := rfl
        locks := rfl
        placed := rfl
        storing := nofun}⟩
  | claims hi hfree => exact ⟨_,_,_,sound_claim h hi hfree⟩
  | loses hi hset =>
    have hfits := h.fits_of_phase hi
    exact ⟨_,_,_,sound_pass h hi hset hfits rfl rfl rfl nofun⟩
  | stores hi => exact ⟨_,_,_,sound_store h hi⟩
  | constructs hi => exact ⟨_,_,_,sound_goto h hi {
      fits := trivial,charge := rfl,visits := nofun,grabs := nofun,counted := rfl,locks := rfl,
      placed := .inl rfl,storing := nofun}⟩
  | destroys hi htokens => exact ⟨_,_,_,sound_destroy h htokens⟩

end Changes

section Runs

variable {hashedId : ι → ℕ} {ranked : List ι} {owned : ι → Option ℕ} {list : List ℕ}
  {acts : List (Act ι)} {s s' : State ι} {i : ι} {b : ℕ}

/-- One empty table, and nobody in a call. -/
theorem sound_start : Sound hashedId [] (fun _ => none) [] (.start (2^b) : State ι) := by
  refine ⟨⟨fun _ _ => ⟨b,rfl⟩,fun _ _ => le_rfl,rfl,fun _ hlt => absurd hlt (Nat.not_lt_zero _),
    fun _ => le_rfl,nofun,nofun,nofun,nofun⟩,⟨rfl,List.nodup_nil,rfl,nofun,nofun,nofun,nofun,?_,
    nofun,nofun,nofun,nofun⟩,fun _ => trivial,fun i hc => absurd rfl hc,fun i => ?_,
    List.nodup_nil,rfl,
    ?_,nofun,nofun⟩
  · intro p hp
    exact absurd hp (lt_irrefl 0)
  · refine ⟨nofun,?_⟩
    rintro (hc|hc)
    · exact absurd rfl hc
    · cases hc
  · refine ⟨nofun,?_⟩
    rintro ⟨i,hi⟩
    cases hi

/-- The invariant holds in every state of every interleaving. -/
theorem sound_of_reaches (h : Reaches (next hashedId) Unrestricted (.start (2^b)) acts s) :
    ∃ ranked owned list,Sound hashedId ranked owned list s := by
  refine h.invariant (I := fun s => ∃ ranked owned list,Sound hashedId ranked owned list s)
    ⟨_,_,_,sound_start⟩ ?_
  intro s a s' ⟨ranked,owned,list,hs⟩ _ hn
  exact sound_step hs hn

/-- An allocation fails. -/
def Act.fails : Act ι → Bool
  | .allocateFails _ | .createFails _ => true
  | _ => false

/-- Nobody returned, or is about to return, without a producer. -/
def State.Supplied (s : State ι) : Prop :=
  ∀ i,s.phase i≠.undoing ∧ s.phase i≠.failing ∧ (i,none)∉s.returned

/-- A thread which moves to another phase. -/
theorem State.Supplied.moved {q : Phase} (h : s.Supplied)
    (hphase : s'.phase=Function.update s.phase i q) (hundoing : q≠.undoing) (hfailing : q≠.failing)
    (hreturned : ∀ j,(j,none)∈s'.returned → (j,none)∈s.returned) : s'.Supplied := by
  intro j
  rw [hphase]
  obtain ⟨hj1,hj2,hj3⟩ := h j
  by_cases hij : j=i
  · rw [hij,Function.update_self]
    exact ⟨hundoing,hfailing,fun hc => (h i).2.2 (hreturned i hc)⟩
  · rw [Function.update_of_ne hij]
    exact ⟨hj1,hj2,fun hc => hj3 (hreturned j hc)⟩

/-- A thread which returns a producer. -/
theorem State.Supplied.finished {value : Option ℕ} (h : s.Supplied) (hvalue : value≠none) :
    (s.finish i value).Supplied := by
  refine h.moved rfl nofun nofun fun j hj => (List.mem_cons.mp hj).resolve_left ?_
  intro hc
  exact hvalue (Prod.mk.inj hc).2.symm

/-- Without a failed allocation every call returns a producer. -/
theorem supplied_step {a : Act ι} (h : Sound hashedId ranked owned list s) (hs : s.Supplied)
    (ha : a.fails=false) (hn : next hashedId s a=some s') : s'.Supplied := by
  have hwalk : ∀ (i : ι) (demand : Demand) (v : Option ℕ),(s.goto i (walk demand v)).Supplied := by
    intro i demand v
    cases v
    · exact hs.moved rfl nofun nofun fun _ => id
    · exact hs.moved rfl nofun nofun fun _ => id
  have haccept : ∀ mainHash newCount,
      s.accept mainHash newCount≠.undoing ∧ s.accept mainHash newCount≠.failing := by
    intro mainHash newCount
    rw [State.accept]
    split <;> exact ⟨nofun,nofun⟩
  cases next_effect hn with
  | @found i hash index probedKey hi hkey =>
    obtain ⟨hown,hvalue⟩ := h.value_eq hkey (by rw [hi]; nofun)
    refine hs.finished ?_
    rw [hvalue]
    exact hown
  | accepts => exact hs.moved rfl (haccept _ _).1 (haccept _ _).2 fun _ => id
  | unlocks => exact hs.moved rfl (haccept _ _).1 (haccept _ _).2 fun _ => id
  | undoes hi => exact absurd hi (hs _).1
  | fails hi => exact absurd hi (hs _).2.1
  | unable => cases ha
  | lacks => cases ha
  | invalid => cases ha
  | lists => exact hwalk _ _ _
  | skips => exact hwalk _ _ _
  | misses => exact hwalk _ _ _
  | stores hi =>
    obtain ⟨rfl,hkey⟩ := h.fits_of_phase hi
    exact hs.finished (h.tables.value hkey).1
  | destroys => exact hs
  | _ => exact hs.moved rfl nofun nofun fun _ => id

/-- So a call which returns none has met a failed allocation. -/
theorem supplied_of_reaches (h : Reaches (next hashedId) Unrestricted (.start (2^b)) acts s)
    (hacts : ∀ a∈acts,a.fails=false) : s.Supplied := by
  induction h with
  | start => exact fun _ => ⟨nofun,nofun,nofun⟩
  | step a hrun _ hn ih =>
    obtain ⟨hold,hlast⟩ := List.forall_mem_append.mp hacts
    obtain ⟨ranked,owned,list,hs⟩ := sound_of_reaches hrun
    exact supplied_step hs (ih hold) (hlast a List.mem_cons_self) hn

/-- Every table has a free slot. -/
theorem Sound.exists_free_slot (h : Sound hashedId ranked owned list s) {table : ℕ}
    (htable : table ≤ s.implicitProducerHash) : ∃ k < s.capacity table,s.key table k=none := by
  have hroom : s.room table ≤ s.capacity table := by
    rw [State.room]
    omega
  have hranks : ∀ {k i},s.key table k=some i → i∈ranked ∧ rank ranked i < s.room table := by
    intro k i hk
    obtain ⟨-,hmem,hlt,-⟩ := h.tables.key hk
    exact ⟨hmem,hlt⟩
  exact exists_free (h.tables.capacity_pos htable) hroom h.tables.unique hranks

/-- Who clears the flag has a table with room. -/
theorem Sound.room_of_unlocking {mainHash newCount : ℕ} (h : Sound hashedId ranked owned list s)
    (hi : s.phase i=.unlocking mainHash newCount) : newCount < s.room mainHash := by
  have hlt := (h.fits_of_phase hi).2.2.2
  rw [State.room]
  omega

/-- A search has passed fewer slots than there are. -/
theorem Sound.at_lt (h : Sound hashedId ranked owned list s) {table k : ℕ}
    (htable : table ≤ s.implicitProducerHash) (hat : s.At hashedId i table k) :
    ∃ d < s.capacity table,k=(hashedId i+d)%s.capacity table ∧
      ∀ e < d,s.key table ((hashedId i+e)%s.capacity table)≠none := by
  obtain ⟨d,hd,hpassed⟩ := hat
  obtain ⟨l,hl,hfree⟩ := h.exists_free_slot htable
  refine ⟨d,hpassed.lt_capacity hl fun hc => h.tables.known hc.1 hfree,hd,fun e he => ?_⟩
  exact h.tables.known (hpassed e he).1

/-- All searches end. In every state of every interleaving every table has a free
slot; a thread which looks for its key, or for a slot to put it in, has passed fewer
slots than the table has, and all of them are set; a thread which is done with the
flag finds the table it was left with less than three quarters full; and the flag is
set while exactly one thread is in the block it guards. -/
theorem every_search_has_a_free_slot
    (h : Reaches (next hashedId) Unrestricted (.start (2^b)) acts s) :
    (∀ table ≤ s.implicitProducerHash,∃ k < s.capacity table,s.key table k=none) ∧
      (∀ i mainHash hash index,s.phase i=.probing mainHash hash index →
        ∃ d < s.capacity hash,s.mask hash index=(hashedId i+d)%s.capacity hash ∧
          ∀ e < d,s.key hash ((hashedId i+e)%s.capacity hash)≠none) ∧
      (∀ i mainHash index value,s.phase i=.placing mainHash index value →
        ∃ d < s.capacity mainHash,s.mask mainHash index=(hashedId i+d)%s.capacity mainHash ∧
          ∀ e < d,s.key mainHash ((hashedId i+e)%s.capacity mainHash)≠none) ∧
      (∀ i mainHash newCount,s.phase i=.unlocking mainHash newCount →
        newCount < s.room mainHash) ∧ (s.resizing=true ↔ ∃! i,(s.phase i).locks=true) := by
  obtain ⟨ranked,owned,list,hs⟩ := sound_of_reaches h
  have hlatest := hs.tables.latest
  refine ⟨fun table htable => hs.exists_free_slot htable,fun i mainHash hash index hi => ?_,
    fun i mainHash index value hi => ?_,fun i mainHash newCount hi => hs.room_of_unlocking hi,?_⟩
  · obtain ⟨hmain,hhash,-,hat⟩ := hs.fits_of_phase hi
    exact hs.at_lt (hhash.trans (hmain.trans_le (hlatest i))) hat
  · obtain ⟨-,-,hmain,-,-,hat⟩ := hs.fits_of_phase hi
    exact hs.at_lt (hmain.trans (hlatest i)) hat
  · rw [hs.flag]
    refine ⟨?_,fun hc => hc.exists⟩
    rintro ⟨i,hi⟩
    exact ⟨i,hi,fun j hj => hs.sole hj hi⟩

end Runs

/-- Thread 0 gets a producer and allocates a table for it. Thread 1 does not see
it yet there, allocates another table and loses a race for the end of the list.
Thread 0 finds itself in the old table, wants the same slot of the new one as
thread 1, and takes the next one. At last a token leaves a producer behind, and
another token takes it. -/
def crowdedRun : List (Act (Fin 2)) :=
  [.enter 0,.loadHash 0 0,.loadKey 0 none,.draw 0,.lock 0,.reload 0,.allocate 0,.clear 0,
    .loadTail 0 none,.create 0,.loadTail 0 none,.hook 0,.loadKey 0 none,.claim 0,.store 0,
    .enter 1,.loadHash 1 1,.loadKey 1 none,.loadKey 1 none,.draw 1,.lock 1,.reload 1,.allocate 1,
    .clear 1,.loadTail 1 none,.create 1,.loadTail 1 none,.hookFails 1 (some 0),.hook 1,
    .enter 0,.loadHash 0 2,.loadKey 0 none,.loadKey 0 (some 0),.loadKey 0 none,
    .loadKey 1 none,.claim 1,.store 1,.claim 0,.loadKey 0 none,.claim 0,.store 0,
    .construct 0,.loadTail 0 (some 1),.loadInactive 0 false,.loadInactive 0 false,.create 0,
    .loadTail 0 (some 1),.hook 0,.destroy 0 2,
    .construct 1,.loadTail 1 (some 2),.loadInactive 1 true,.grab 1]

/-- In the middle of it thread 0 has passed a slot of the new table. -/
theorem every_search_has_a_free_slot_crowded :
    ∃ s : State (Fin 2),
      Reaches (next fun _ => 5) Unrestricted (.start (2^1)) (crowdedRun.take 38) s ∧
      s.phase 0=.placing 2 6 (some 0) ∧ s.key 2 5=some 1 ∧
        ∀ table ≤ s.implicitProducerHash,∃ k < s.capacity table,s.key table k=none := by
  obtain ⟨s,hs,hseen⟩ := reaches_of_replay (next fun _ => 5) Unrestricted (.start (2^1))
    (crowdedRun.take 38) (fun s => (s.phase 0,s.key 2 5)) (.placing 2 6 (some 0),some 1)
    (by decide +kernel)
  simp only [Prod.mk.injEq] at hseen
  exact ⟨s,hs,hseen.1,hseen.2,(every_search_has_a_free_slot hs).1⟩

end FastEventSystem.ProducerTable
