import Mathlib.Data.List.ReduceOption
import Mathlib.Data.Prod.Lex
import FastEventSystem.EndlessRuns
import FastEventSystem.ProducerLookup

/-!
# A call for a producer comes to its end

Every step of a call of `get_or_add_implicit_producer`, or of the constructor of a
token, brings the call nearer to its end, whatever the other threads do in between;
a search has fewer and fewer slots before it and the walk over the list fewer and
fewer producers. There are two exceptions. A thread which finds a table quite full
while another thread allocates a larger one loads the table again, and an exchange
of the end of the list may fail. So a call which does not end does one of these
again and again.
-/

namespace FastEventSystem.ProducerTable

open EndlessRuns GuardedRuns LinearProbing LinkedNodes

variable {ι : Type*}

/-- A thread loads the first table again, or its exchange of the end of the list
fails. -/
def State.Retries (s : State ι) : Act ι → Prop
  | .loadHash i _ => ∃ newCount,s.phase i=.waiting newCount
  | .hookFails _ _ => True
  | _ => False

/-- How many producers were on the list before this one. -/
def State.height (s : State ι) (ptr : ℕ) : ℕ :=
  (s.producerListTail::s.past).reduceOption.reverse.idxOf ptr

/-- How many slots a search has before it. -/
def State.ahead (hashedId : ι → ℕ) (s : State ι) (i : ι) (table k : ℕ) : ℕ :=
  s.capacity table-distance (s.capacity table) (hashedId i) k

/-- How far a call is from its end. -/
def Phase.effort (hashedId : ι → ℕ) (s : State ι) (i : ι) : Phase → ℕ ×ₗ (ℕ ×ₗ ℕ)
  | .outside => toLex (0,toLex (0,0))
  | .undoing | .failing => toLex (1,toLex (0,0))
  | .storing _ _ _ => toLex (2,toLex (0,0))
  | .claiming mainHash k _ => toLex (3,toLex (s.ahead hashedId i mainHash k,0))
  | .placing mainHash index _ =>
    toLex (3,toLex (s.ahead hashedId i mainHash (s.mask mainHash index),1))
  | .refunding _ _ | .hooking _ _ _ => toLex (4,toLex (0,0))
  | .chaining _ _ => toLex (5,toLex (0,0))
  | .creating _ => toLex (6,toLex (0,0))
  | .grabbing _ ptr => toLex (7,toLex (s.height ptr,0))
  | .walking _ ptr => toLex (7,toLex (s.height ptr,1))
  | .listing _ => toLex (8,toLex (0,0))
  | .unlocking _ _ | .waiting _ => toLex (9,toLex (0,0))
  | .allocating _ _ => toLex (10,toLex (0,0))
  | .reloading _ => toLex (11,toLex (0,0))
  | .deciding _ _ => toLex (12,toLex (0,0))
  | .counting _ => toLex (13,toLex (0,0))
  | .probing _ hash index =>
    toLex (14,toLex (hash,s.ahead hashedId i hash (s.mask hash index)))
  | .entering => toLex (15,toLex (0,0))

variable [DecidableEq ι] {hashedId : ι → ℕ} {ranked : List ι} {owned : ι → Option ℕ} {list : List ℕ}
  {s s' : State ι} {i : ι}

section Others

/-- What a step leaves to the other threads. -/
structure Frame (i : ι) (s s' : State ι) : Prop where
  /-- They stay where they are. -/
  phase : ∀ j,j≠i → s'.phase j=s.phase j
  /-- Tables keep their capacity. -/
  capacity : ∀ table ≤ s.implicitProducerHash,s'.capacity table=s.capacity table
  /-- The list grows at its end. -/
  history : ∃ grown,s'.producerListTail::s'.past=grown++s.producerListTail::s.past

/-- A step which moves its thread and leaves capacities and the list alone. -/
theorem Frame.moved {q : Phase} (hphase : s'.phase=Function.update s.phase i q)
    (hcapacity : s'.capacity=s.capacity)
    (htail : s'.producerListTail::s'.past=s.producerListTail::s.past) : Frame i s s' := by
  refine ⟨fun j hj => ?_,fun table _ => ?_,[],htail⟩
  · rw [hphase,Function.update_of_ne hj]
  · rw [hcapacity]

/-- Every step leaves this to the others. -/
theorem next_frame {a : Act ι} (hn : next hashedId s a=some s') : Frame a.thread s s' := by
  cases next_effect hn with
  | allocates =>
    refine ⟨fun j hj => Function.update_of_ne hj _ _,fun table hle => ?_,[],rfl⟩
    exact Function.update_of_ne (by omega) _ _
  | @gives i mainHash producer =>
    exact ⟨fun j hj => Function.update_of_ne hj _ _,fun _ _ => rfl,[some producer],rfl⟩
  | @entrusts i producer =>
    exact ⟨fun j hj => Function.update_of_ne hj _ _,fun _ _ => rfl,[some producer],rfl⟩
  | destroys => exact ⟨fun _ _ => rfl,fun _ _ => rfl,[],rfl⟩
  | _ => exact .moved rfl rfl rfl

omit [DecidableEq ι] in
/-- The height of a producer is its place in the list. -/
theorem Supply.height_eq (h : Supply owned list s) (ptr : ℕ) :
    s.height ptr=list.reverse.idxOf ptr := by
  have hlist : (s.producerListTail::s.past).reduceOption=list := by
    rw [h.history,List.reduceOption_append]
    simp [List.reduceOption]
  rw [State.height,hlist]

omit [DecidableEq ι] in
/-- The next producer is lower. -/
theorem Supply.height_next {ptr ptr' : ℕ} (h : Supply owned list s) (hmem : ptr∈list)
    (hnext : s.next ptr=some ptr') : s.height ptr' < s.height ptr := by
  rw [h.height_eq,h.height_eq]
  exact h.chain.idxOf_lt h.nodup hmem hnext

omit [DecidableEq ι] in
/-- Producers on the list keep their height. -/
theorem Frame.height {ptr : ℕ} (h : Frame i s s') (hs : Supply owned list s) (hmem : ptr∈list) :
    s'.height ptr=s.height ptr := by
  obtain ⟨grown,hgrown⟩ := h.history
  have hlist : ptr∈(s.producerListTail::s.past).reduceOption.reverse := by
    rw [hs.history,List.reduceOption_append]
    simpa [List.reduceOption] using hmem
  rw [State.height,hgrown,List.reduceOption_append,List.reverse_append,
    List.idxOf_append_of_mem hlist]
  rfl

/-- The steps of other threads bring a call no further from its end. -/
theorem Frame.effort_eq {j : ι} (h : Frame i s s') (hs : Sound hashedId ranked owned list s)
    (hj : j≠i) : (s'.phase j).effort hashedId s' j=(s.phase j).effort hashedId s j := by
  have hcapacity : ∀ table ≤ s.latest j,s'.capacity table=s.capacity table :=
    fun table hle => h.capacity table (hle.trans (hs.tables.latest j))
  have hahead : ∀ table ≤ s.latest j,∀ k,
      s'.ahead hashedId j table k=s.ahead hashedId j table k := by
    intro table hle k
    rw [State.ahead,State.ahead,hcapacity table hle]
  have hmask : ∀ table ≤ s.latest j,∀ index,s'.mask table index=s.mask table index := by
    intro table hle index
    rw [State.mask,State.mask,hcapacity table hle]
  have hfits := hs.fits j
  have hvisits := fun p => hs.supply.visits (i := j) (p := p)
  rw [h.phase j hj]
  cases hp : s.phase j with
  | probing mainHash hash index =>
    rw [hp] at hfits
    have hle : hash ≤ s.latest j := hfits.2.1.trans hfits.1.le
    rw [Phase.effort,Phase.effort,hmask hash hle,hahead hash hle]
  | placing mainHash index value =>
    rw [hp] at hfits
    have hle : mainHash ≤ s.latest j := hfits.2.2.1
    rw [Phase.effort,Phase.effort,hmask mainHash hle,hahead mainHash hle]
  | claiming mainHash k value =>
    rw [hp] at hfits
    have hle : mainHash ≤ s.latest j := hfits.2.2.1
    rw [Phase.effort,Phase.effort,hahead mainHash hle]
  | walking demand ptr =>
    rw [Phase.effort,Phase.effort,h.height hs.supply (hvisits ptr (by rw [hp]; rfl))]
  | grabbing demand ptr =>
    rw [Phase.effort,Phase.effort,h.height hs.supply (hvisits ptr (by rw [hp]; rfl))]
  | _ => rfl

end Others

section Own

/-- A later stage. -/
theorem stage_lt {m n : ℕ} {x y : ℕ ×ₗ ℕ} (h : m < n) : toLex (m,x) < toLex (n,y) :=
  Prod.Lex.toLex_lt_toLex.mpr (.inl h)

/-- The same stage, further on. -/
theorem within_lt {n x x' y y' : ℕ} (h : x < x' ∨ x=x' ∧ y < y') :
    toLex (n,toLex (x,y)) < toLex (n,toLex (x',y')) :=
  Prod.Lex.toLex_lt_toLex.mpr (.inr ⟨rfl,Prod.Lex.toLex_lt_toLex.mpr h⟩)

/-- A search which passes a slot has fewer before it. -/
theorem Sound.ahead_lt {table k : ℕ} (h : Sound hashedId ranked owned list s)
    (htable : table ≤ s.implicitProducerHash) (hat : s.At hashedId i table k)
    (hset : s.key table k≠none) :
    s.ahead hashedId i table (s.mask table (k+1)) < s.ahead hashedId i table k := by
  obtain ⟨d,hd,hpassed⟩ := hat
  obtain ⟨l,hl,hfree⟩ := h.exists_free_slot htable
  have hset' : Passed (fun l => s.key table l≠none) (s.capacity table) (hashedId i) (d+1) :=
    Passed.succ (hpassed.mono fun _ hm => h.tables.known hm.1) (by rwa [←hd])
  have hlt := hset'.lt_capacity hl fun hc => hc hfree
  rw [State.ahead,State.ahead,h.tables.mask_eq htable,hd,slot_succ,distance_slot hlt,
    distance_slot (Nat.lt_of_succ_lt hlt)]
  omega

/-- The walk over the list goes down. -/
theorem Sound.walk_lt {demand : Demand} {ptr n : ℕ}
    (h : Sound hashedId ranked owned list s) (hmem : ptr∈list) :
    (walk demand (s.next ptr)).effort hashedId s i < toLex (7,toLex (s.height ptr,n)) := by
  cases hnext : s.next ptr with
  | none => exact stage_lt (by decide)
  | some ptr' => exact within_lt (.inl (h.supply.height_next hmem hnext))

/-- Every other step of a call brings it nearer to its end. -/
theorem effort_lt {a : Act ι} (h : Sound hashedId ranked owned list s)
    (hn : next hashedId s a=some s') (hinside : s.phase a.thread≠.outside)
    (hretries : ¬s.Retries a) :
    (s'.phase a.thread).effort hashedId s' a.thread <
      (s.phase a.thread).effort hashedId s a.thread := by
  have ht := h.tables
  -- It suffices to compare the phases of the thread before and after.
  have hmoved : ∀ {s' : State ι} {i p q},s.phase i=p → s'.phase=Function.update s.phase i q →
      q.effort hashedId s' i < p.effort hashedId s i →
        (s'.phase i).effort hashedId s' i < (s.phase i).effort hashedId s i := by
    intro s' i p q hp hq hlt
    rw [hq,Function.update_self,hp]
    exact hlt
  cases next_effect hn with
  | enters hi => exact absurd hi hinside
  | constructs hi => exact absurd hi hinside
  | destroys hi => exact absurd hi hinside
  | restarts hi => exact absurd ⟨_,hi⟩ hretries
  | relinks => exact absurd trivial hretries
  | descends hi hprev =>
    obtain ⟨hmain,hhash,-,-⟩ := h.fits_of_phase hi
    have holder := ht.eq_succ_of_prev (hhash.trans (hmain.trans_le (ht.latest _))) hprev
    exact hmoved hi rfl (within_lt (.inl (by omega)))
  | passes hi hset =>
    obtain ⟨hmain,hhash,-,hat⟩ := h.fits_of_phase hi
    exact hmoved hi rfl (within_lt (.inr ⟨rfl,
      h.ahead_lt (hhash.trans (hmain.trans_le (ht.latest _))) hat hset⟩))
  | aims hi => exact hmoved hi rfl (within_lt (.inr ⟨rfl,Nat.zero_lt_one⟩))
  | avoids hi hset =>
    obtain ⟨-,-,hmain,-,-,hat⟩ := h.fits_of_phase hi
    exact hmoved hi rfl (within_lt (.inl (h.ahead_lt (hmain.trans (ht.latest _)) hat hset)))
  | accepts hi =>
    refine hmoved hi rfl ?_
    rw [State.accept]
    split
    · exact stage_lt (by decide)
    · exact stage_lt (by decide)
  | unlocks hi =>
    refine hmoved hi rfl ?_
    rw [State.accept,if_pos (h.room_of_unlocking hi)]
    exact stage_lt (by decide)
  | @lists i demand v hi =>
    refine hmoved hi rfl ?_
    cases v with
    | none => exact stage_lt (by decide)
    | some ptr => exact stage_lt (by decide)
  | fits hi => exact hmoved hi rfl (within_lt (.inr ⟨rfl,Nat.zero_lt_one⟩))
  | skips hi => exact hmoved hi rfl (h.walk_lt (h.supply.visits (by rw [hi]; rfl)))
  | misses hi => exact hmoved hi rfl (h.walk_lt (h.supply.visits (by rw [hi]; rfl)))
  | loses hi hset =>
    obtain ⟨-,-,hmain,-,-,hat⟩ := h.fits_of_phase hi
    exact hmoved hi rfl (within_lt (.inl (h.ahead_lt (hmain.trans (ht.latest _)) hat hset)))
  -- All other steps lead to a later stage.
  | starts hi | found hi | foundBelow hi | missed hi | draws hi | locks hi | small hi | large hi
  | allocates hi | unable hi | undoes hi | chains hi | recycles hi | reuses hi | refunds hi
  | fails hi | creates hi | lacks hi | invalid hi | gives hi | entrusts hi | claims hi
  | stores hi =>
    exact hmoved hi rfl (stage_lt (by decide))

/-- A thread which is sent to wait has met another thread in the block which the
flag guards. -/
theorem waits_for_another {a : Act ι} {newCount : ℕ} (h : Sound hashedId ranked owned list s)
    (hn : next hashedId s a=some s') (hwaiting : s'.phase i=.waiting newCount) :
    s.phase i=.waiting newCount ∨ ∃ j,j≠i ∧ (s.phase j).locks=true := by
  by_cases hi : i=a.thread
  swap
  · left
    rwa [←(next_frame hn).phase i hi]
  have hmoved : ∀ {s' : State ι} {q : Phase},s'.phase=Function.update s.phase i q →
      s'.phase i=.waiting newCount → q=.waiting newCount := by
    intro s' q hq hwaiting
    rwa [hq,Function.update_self] at hwaiting
  have hwalk : ∀ {demand v},walk demand v≠.waiting newCount := by
    intro demand v
    cases v <;> nofun
  subst hi
  cases next_effect hn with
  | @accepts i mainHash count hi hset =>
    have haccept := hmoved rfl hwaiting
    rw [State.accept] at haccept
    split_ifs at haccept with hroom
    rw [State.room] at hroom
    -- The count is large enough, so the flag was set.
    obtain ⟨j,hj⟩ := h.flag.mp (hset (by omega))
    refine .inr ⟨j,?_,hj⟩
    rintro rfl
    rw [show s.phase _=_ from hi] at hj
    cases hj
  | unlocks hi =>
    have haccept := hmoved rfl hwaiting
    rw [State.accept,if_pos (h.room_of_unlocking hi)] at haccept
    cases haccept
  | lists => exact absurd (hmoved rfl hwaiting) hwalk
  | skips => exact absurd (hmoved rfl hwaiting) hwalk
  | misses => exact absurd (hmoved rfl hwaiting) hwalk
  | destroys => exact .inl hwaiting
  | _ => cases hmoved rfl hwaiting

end Own

section Endless

variable {run : ℕ → State ι} {act : ℕ → Act ι} {b : ℕ}

/-- A run which goes on for ever. -/
structure Endless (hashedId : ι → ℕ) (b : ℕ) (run : ℕ → State ι) (act : ℕ → Act ι) : Prop where
  /-- Where it starts. -/
  start : run 0=.start (2^b)
  /-- Its steps. -/
  step : ∀ n,next hashedId (run n) (act n)=some (run (n+1))

/-- All its states are sound. -/
theorem Endless.sound (h : Endless hashedId b run act) (n : ℕ) :
    ∃ ranked owned list,Sound hashedId ranked owned list (run n) := by
  refine @holds_along _ _ (next hashedId) run act (fun s => ∃ ranked owned list,
    Sound hashedId ranked
    owned list s) ?_ h.step ?_ n
  · rw [h.start]
    exact ⟨_,_,_,sound_start⟩
  · rintro s a s' ⟨ranked,owned,list,hs⟩ hn
    exact sound_step hs hn

/-- A call which never ends although its thread takes steps again and again, in
whatever interleaving with others, retries again and again: it loads the first table
because it was told to wait, or its exchange of the end of the list fails. It is
told to wait only when another thread is in the block which the flag guards. -/
theorem endless_call_retries (h : Endless hashedId b run act) {first : ℕ}
    (hinside : ∀ n ≥ first,(run n).phase i≠.outside)
    (hoften : ∀ n,∃ m ≥ n,(act m).thread=i) :
    (∀ n,∃ m ≥ n,(act m).thread=i ∧ (run m).Retries (act m)) ∧
      ∀ n newCount,(run (n+1)).phase i=.waiting newCount → (run n).phase i=.waiting newCount ∨
        ∃ j,j≠i ∧ ((run n).phase j).locks=true := by
  refine ⟨?_,fun n newCount hwaiting => ?_⟩
  · refine excused_again_and_again (fun n => ((run n).phase i).effort hashedId (run n) i) hoften
      (fun n (hn : n ≥ first) hi hretries => ?_) (fun n _ hi => ?_)
    · -- A step of the thread which is no retry.
      obtain ⟨ranked,owned,list,hs⟩ := h.sound n
      subst hi
      exact effort_lt hs (h.step n) (hinside n hn) hretries
    · -- A step of another thread.
      obtain ⟨ranked,owned,list,hs⟩ := h.sound n
      exact ((next_frame (h.step n)).effort_eq hs (Ne.symm hi)).le
  · obtain ⟨ranked,owned,list,hs⟩ := h.sound n
    exact waits_for_another hs (h.step n) hwaiting

end Endless

/-- The only thread creates a producer, and its exchange of the end of the list
fails for no reason from then on. -/
def failingAct (n : ℕ) : Act (Fin 1) :=
  [.enter 0,.loadHash 0 0,.loadKey 0 none,.draw 0,.lock 0,.loadTail 0 none,.create 0,
    .loadTail 0 none].getD n (.hookFails 0 none)

/-- The states it goes through. -/
def failingRun : ℕ → State (Fin 1)
  | 0 => .start (2^5)
  | n+1 => (next (fun _ => 5) (failingRun n) (failingAct n)).getD (failingRun n)

/-- From the eighth step on it stays before the exchange. -/
theorem failingRun_stays (n : ℕ) : (failingRun (n+8)).phase 0=.hooking (.thread 0) 0 none ∧
    (failingRun (n+8)).producerListTail=none ∧
      ∃ s',next (fun _ => 5) (failingRun (n+8)) (failingAct (n+8))=some s' := by
  have hnext : ∀ s : State (Fin 1),s.phase 0=.hooking (.thread 0) 0 none → s.producerListTail=none →
      next (fun _ => 5) s (.hookFails 0 none)=
        some {s.goto 0 (.hooking (.thread 0) 0 none) with
          next := Function.update s.next 0 none} := by
    intro s hphase htail
    simp only [next,State.Seen,hphase,htail,true_or,if_true]
  have hact : failingAct (n+8)=.hookFails 0 none := rfl
  rw [hact]
  induction n with
  | zero =>
    have hphase : (failingRun 8).phase 0=.hooking (.thread 0) 0 none := by decide +kernel
    have htail : (failingRun 8).producerListTail=none := by decide +kernel
    exact ⟨hphase,htail,_,hnext _ hphase htail⟩
  | succ n ih =>
    obtain ⟨hphase,htail,-⟩ := ih rfl
    have hrun : failingRun (n+1+8)={(failingRun (n+8)).goto 0 (.hooking (.thread 0) 0 none) with
        next := Function.update (failingRun (n+8)).next 0 none} := by
      rw [show n+1+8=(n+8)+1 by omega,failingRun,show failingAct (n+8)=.hookFails 0 none from rfl,
        hnext _ hphase htail,Option.getD_some]
    have hphase' : (failingRun (n+1+8)).phase 0=.hooking (.thread 0) 0 none := by rw [hrun]; rfl
    have htail' : (failingRun (n+1+8)).producerListTail=none := by rw [hrun]; exact htail
    exact ⟨hphase',htail',_,hnext _ hphase' htail'⟩

/-- It is a run. -/
theorem failing_endless : Endless (fun _ => 5) 5 failingRun failingAct := by
  refine ⟨rfl,fun n => ?_⟩
  have hsome : (next (fun _ => 5) (failingRun n) (failingAct n)).isSome=true := by
    rcases Nat.lt_or_ge n 8 with hlt|hge
    · have hall : ∀ n < 8,(next (fun _ => 5) (failingRun n) (failingAct n)).isSome=true := by
        decide +kernel
      exact hall n hlt
    · obtain ⟨-,-,s',hn⟩ := failingRun_stays (n-8)
      rw [Nat.sub_add_cancel hge] at hn
      rw [hn]
      rfl
  obtain ⟨s',hn⟩ := Option.isSome_iff_exists.mp hsome
  rw [failingRun,hn,Option.getD_some]

/-- So it retries again and again. -/
theorem endless_call_retries_failing : Endless (fun _ => 5) 5 failingRun failingAct ∧
    ∀ n,∃ m ≥ n,(failingAct m).thread=0 ∧ (failingRun m).Retries (failingAct m) := by
  have hinside : ∀ n ≥ 8,(failingRun n).phase 0≠.outside := by
    intro n hn
    obtain ⟨hphase,-,-⟩ := failingRun_stays (n-8)
    rw [Nat.sub_add_cancel hn] at hphase
    rw [hphase]
    nofun
  exact ⟨failing_endless,(endless_call_retries failing_endless hinside
    fun n => ⟨n,le_rfl,Subsingleton.elim _ _⟩).1⟩

end FastEventSystem.ProducerTable
