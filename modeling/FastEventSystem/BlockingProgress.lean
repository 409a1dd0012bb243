import FastEventSystem.BlockingSupply

/-!
# A consumer by itself finishes its search

The blocking queue spins: a consumer with units repeats its search until it has
the elements. Whatever the other threads were doing when they stopped, also in the
middle of a dequeue with a number drawn and not settled, the search of a consumer
which runs on alone ends, and it ends with as many elements as it has units.
-/

namespace FastEventSystem.BlockingQueue

open CircularWords GuardedRuns PartyTotals

variable {ι α : Type*} [DecidableEq ι]

/-- From one state to another by steps of one thread alone, outside the
semaphore. -/
structure Solo (spins w block : ℕ) (i : ι) (s s' : State ι α) : Prop where
  /-- The steps. -/
  run : ∃ acts : List (Act ι α),(∀ a∈acts,a.thread=i) ∧
    replay (next spins w block) (Timely w) s acts=some s'
  /-- The semaphore is left alone. -/
  sema : s'.sema=s.sema
  /-- The others stay where they are. -/
  others : ∀ j,j≠i → s'.control j=s.control j
  /-- No producer is added. -/
  producers : s'.producers=s.producers

section Runs

variable {spins w block : ℕ} {i : ι} {s s' s'' : State ι α}

/-- No step. -/
theorem Solo.refl (s : State ι α) : Solo spins w block i s s :=
  ⟨⟨[],nofun,rfl⟩,rfl,fun _ _ => rfl,rfl⟩

/-- One after the other. -/
theorem Solo.trans (h : Solo spins w block i s s') (h' : Solo spins w block i s' s'') :
    Solo spins w block i s s'' := by
  obtain ⟨acts,hthread,hrun⟩ := h.run
  obtain ⟨acts',hthread',hrun'⟩ := h'.run
  refine ⟨⟨acts++acts',fun a ha => ?_,?_⟩,h'.sema.trans h.sema,
    fun j hj => (h'.others j hj).trans (h.others j hj),h'.producers.trans h.producers⟩
  · rcases List.mem_append.mp ha with ha|ha
    · exact hthread a ha
    · exact hthread' a ha
  · rw [replay_of_append,hrun]
    exact hrun'

/-- One step which changes the thread's control and one sub-queue. -/
theorem Solo.step {a : Act ι α} {p : ι} {u : SubqueueClaims.State ι α} {c : Control ι}
    (hthread : a.thread=i) (htimely : Timely w s a)
    (hn : next spins w block s a=some ((s.put p u).goto i c)) :
    Solo spins w block i s ((s.put p u).goto i c) := by
  refine ⟨⟨[a],fun b hb => ?_,?_⟩,rfl,fun j hj => Function.update_of_ne hj _ _,rfl⟩
  · rw [List.mem_singleton.mp hb]
    exact hthread
  · rw [replay_cons htimely hn]
    rfl

/-- One step which changes the thread's control alone. -/
theorem Solo.walk {a : Act ι α} {c : Control ι} (hthread : a.thread=i) (htimely : Timely w s a)
    (hn : next spins w block s a=some (s.goto i c)) : Solo spins w block i s (s.goto i c) := by
  refine ⟨⟨[a],fun b hb => ?_,?_⟩,rfl,fun j hj => Function.update_of_ne hj _ _,rfl⟩
  · rw [List.mem_singleton.mp hb]
    exact hthread
  · rw [replay_cons htimely hn]
    rfl

end Runs

section Lifting

variable {w block : ℕ} {i p : ι} {r : Request} {q : Search ι}

/-- A consumer which is in no call takes no step inside one. -/
theorem busy_of_inside {u u' : SubqueueClaims.State ι α} {a : SubqueueClaims.Act ι α}
    (hconsumer : a.consumer=some i) (hbegins : a.begins=false)
    (hn : SubqueueClaims.next w block u a=some u') : u.phase i≠.idle := by
  intro hidle
  cases a with
  | reserve => cases hconsumer
  | construct => cases hconsumer
  | publish => cases hconsumer
  | abandon => cases hconsumer
  | call => cases hbegins
  | _ =>
    cases hconsumer
    simp only [SubqueueClaims.next,hidle,reduceCtorEq] at hn

/-- Nothing is put back into a sub-queue. -/
theorem delivered_mono {u u' : SubqueueClaims.State ι α} {a : SubqueueClaims.Act ι α}
    (hn : SubqueueClaims.next w block u a=some u') : u.delivered.length ≤ u'.delivered.length := by
  cases SubqueueClaims.next_effect hn with
  | takes => exact Nat.le_succ _
  | _ => exact le_rfl

/-- Steps inside a sub-queue are steps of the queue, up to the one which ends
the call. -/
theorem replay_inner (spins : ℕ) {need : ℕ} {s : State ι α} {u : SubqueueClaims.State ι α}
    (hi : s.control i=.searching r need q) (hq : q.place=some p)
    {acts : List (SubqueueClaims.Act ι α)}
    (hacts : ∀ a∈acts,a.consumer=some i ∧ a.begins=false) (hsome : acts≠[])
    (hrun : replay (SubqueueClaims.next w block) (SubqueueClaims.Recent w) (s.inner p) acts=some u)
    (hend : u.phase i=.idle) :
    u.delivered.length ≥ (s.inner p).delivered.length ∧
    replay (next spins w block) (Timely w) s (acts.map (.inner i))=
      some ((s.put p u).goto i
        (afterDequeue r (need-(u.delivered.length-(s.inner p).delivered.length)) q)) := by
  induction acts generalizing s need with
  | nil => exact False.elim (hsome rfl)
  | cons a acts ih =>
    obtain ⟨⟨hconsumer,hbegins⟩,hrest⟩ := List.forall_mem_cons.mp hacts
    rw [replay] at hrun
    split at hrun <;> try cases hrun
    rename_i hrecent
    obtain ⟨u₁,hu₁,hrun⟩ := Option.bind_eq_some_iff.mp hrun
    have hgrown := delivered_mono hu₁
    have hplace : (s.control i).place=some p := by rw [hi]; exact hq
    have htimely : Timely w s (.inner i a) := by
      simp only [Timely,lag,hplace]
      exact hrecent
    have hstep : next spins w block s (.inner i a)=some ((s.put p u₁).goto i
        (if u₁.phase i=.idle then
          afterDequeue r (need-(u₁.delivered.length-(s.inner p).delivered.length)) q
        else .searching r (need-(u₁.delivered.length-(s.inner p).delivered.length)) q)) := by
      simp only [next,hi,hq,hu₁,Option.bind_some,Option.map_some]
      exact if_pos ⟨hconsumer,hbegins⟩
    rw [List.map_cons,replay_cons htimely hstep]
    cases acts with
    | nil =>
      cases hrun
      rw [if_pos hend]
      exact ⟨hgrown,rfl⟩
    | cons b acts =>
      have hbusy : u₁.phase i≠.idle := by
        obtain ⟨⟨hconsumer',hbegins'⟩,-⟩ := List.forall_mem_cons.mp hrest
        have hrun' := hrun
        rw [replay] at hrun'
        split at hrun' <;> try cases hrun'
        obtain ⟨u₂,hu₂,-⟩ := Option.bind_eq_some_iff.mp hrun'
        exact busy_of_inside hconsumer' hbegins' hu₂
      rw [if_neg hbusy]
      obtain ⟨hlater,hreplay⟩ := ih (State.goto_control _ _ _) hrest (by intro hc; cases hc)
        (s := (s.put p u₁).goto i
          (.searching r (need-(u₁.delivered.length-(s.inner p).delivered.length)) q))
        (by rw [State.goto_inner,State.put_inner]; exact hrun)
      rw [State.goto_inner,State.put_inner] at hlater hreplay
      refine ⟨hgrown.trans hlater,?_⟩
      have hleft : need-(u₁.delivered.length-(s.inner p).delivered.length)-
          (u.delivered.length-u₁.delivered.length)=
          need-(u.delivered.length-(s.inner p).delivered.length) := by
        omega
      rw [hreplay,State.put_goto_put_goto,hleft]

end Lifting

section Totals

variable [Fintype ι] {spins w block : ℕ} {i p : ι} {r : Request} {need : ℕ} {s s' : State ι α}

/-- Steps of the queue keep its invariant. -/
theorem Solo.whole (hcard : Fintype.card ι < 2147483648) (hw : 0 < w) (hblock : 0 < block)
    (hfits : block ≤ half w) (h : Whole spins w block s) (hsolo : Solo spins w block i s s') :
    Whole spins w block s' := by
  obtain ⟨acts,-,hrun⟩ := hsolo.run
  have hreaches : Reaches (next spins w block) (Timely w) s acts s' :=
    Reaches.replay_append .start hrun
  exact hreaches.invariant h fun hwhole htimely hn =>
    whole_step hcard hw hblock hfits hwhole htimely hn

/-- Only the needs of the running thread change. -/
theorem Solo.needs (hsolo : Solo spins w block i s s') :
    needs s'+(s.control i).need=needs s+(s'.control i).need := by
  have hcontrol : s'.control=Function.update s.control i (s'.control i) := by
    funext j
    by_cases hj : j=i
    · rw [hj,Function.update_self]
    · rw [Function.update_of_ne hj,hsolo.others j hj]
  have htotal := total_update (fun _ (c : Control ι) => (c.need : ℤ)) s.control i (s'.control i)
  rw [←hcontrol] at htotal
  exact htotal

/-- No sub-queue is ahead of its tail by more than all units. -/
theorem front_le (hw : 0 < w) (hblock : 0 < block) (hfits : block ≤ half w)
    (h : Whole spins w block s) (hsmall : needs s ≤ half w) (p : ι) :
    ∃ front fate,SubqueueClaims.Booked fate (s.inner p) ∧ SubqueueClaims.Roomy w block (s.inner p) ∧
      (s.inner p).optimistic=front+(s.inner p).overcommit ∧
      front ≤ (s.inner p).tail+half w := by
  obtain ⟨acts,hacts⟩ := h.inner p
  obtain ⟨⟨fate,hbooked⟩,hroomy,-⟩ := SubqueueClaims.invariants_of_reaches hw hblock hfits hacts
  have hspent := hbooked.spent
  have hburden : ∑ j,(burden ((s.inner p).phase j) : ℤ) ≤ needs s := by
    refine Finset.sum_le_sum fun j _ => ?_
    have hone := Finset.single_le_sum (f := fun p => burden ((s.inner p).phase j))
      (fun _ _ => Nat.zero_le _) (Finset.mem_univ p)
    have hall := (sum_burden_le h.matched j).1
    change (burden ((s.inner p).phase j) : ℤ) ≤ ((s.control j).need : ℤ)
    omega
  have havailable := available_eq hbooked
  have hlength : (s.inner p).delivered.length ≤ (s.inner p).head := by
    have hcard := congrArg Multiset.card hbooked.shared
    rw [Multiset.card_add,Multiset.coe_card,List.length_map,Multiset.card_range] at hcard
    omega
  have hle := hbooked.head_add_claims_le
  rw [available] at havailable
  refine ⟨(s.inner p).optimistic-(s.inner p).overcommit,fate,hbooked,hroomy,by omega,?_⟩
  omega

/-- A consumer visits a sub-queue, alone: it takes something if anything is
available, and leaves the sub-queue as it was otherwise. -/
theorem visit (hw : 0 < w) (hblock : 0 < block) (hfits : block ≤ half w)
    (h : Whole spins w block s) (hsmall : needs s ≤ half w) {q q' : Search ι}
    (hi : s.control i=.searching r need q) (hq : q.place=none) (hq' : q'.place=some p)
    {a : Act ι α} (hthread : a.thread=i) (htimely : Timely w s a)
    (hn : next spins w block s a=s.enter w block i r need p q') :
    ∃ n u,Solo spins w block i s ((s.put p u).goto i (afterDequeue r (need-n) q')) ∧
      (0 < available (s.inner p) → 0 < n) ∧ (n=0 → u=s.inner p) := by
  obtain ⟨front,fate,hbooked,hroomy,hfront,hbehind⟩ := front_le hw hblock hfits h hsmall p
  have hneed := h.matched.positive i r need q hi
  have hidle : (s.inner p).phase i=.idle := by
    refine h.matched.away i p ?_
    rw [hi]
    change q.place≠some p
    rw [hq]
    nofun
  have hlimit : 0 < (r.dequeue need).limit ∧ r.dequeue need≠.dequeueBulk 0 := by
    unfold Request.dequeue
    split
    · exact ⟨Nat.one_pos,nofun⟩
    · refine ⟨hneed,fun heq => ?_⟩
      cases heq
      omega
  generalize hmin : min (r.dequeue need).limit ((s.inner p).tail-front)=n
  obtain ⟨rs,hrun,helements,-⟩ :=
    SubqueueClaims.replay_alone hw hbooked hroomy hidle (r.dequeue need) hfront hbehind hmin
  have hspent := hbooked.spent
  have hpublished := hbooked.published
  have hlength : rs.length=n := by
    have hlen := congrArg List.length helements
    rw [List.length_map,List.length_reverse,List.length_take,List.length_drop] at hlen
    omega
  have hcall : SubqueueClaims.next w block (s.inner p) (.call i (r.dequeue need))=
      some ((s.inner p).goto i (.asking (r.dequeue need))) := if_pos ⟨hidle,hlimit.2⟩
  rw [State.enter,hcall,Option.map_some] at hn
  refine ⟨n,{s.inner p with
    optimistic := (s.inner p).optimistic+n
    head := (s.inner p).head+n
    delivered := rs++(s.inner p).delivered},(Solo.step hthread htimely hn).trans ?_,
    fun hpos => ?_,?_⟩
  · have hnow : ((s.put p ((s.inner p).goto i (.asking (r.dequeue need)))).goto i
        (.searching r need q')).inner p=(s.inner p).goto i (.asking (r.dequeue need)) := by
      rw [State.goto_inner,State.put_inner]
    obtain ⟨-,hreplay⟩ := replay_inner spins (State.goto_control _ _ _) hq'
      (SubqueueClaims.alone_inside (s.inner p) i n) nofun ((congrArg
        (replay (SubqueueClaims.next w block) (SubqueueClaims.Recent w) · _) hnow).trans hrun) hidle
    have htaken : (rs++(s.inner p).delivered).length-
        ((s.inner p).goto i (.asking (r.dequeue need))).delivered.length=n := by
      simp only [List.length_append,SubqueueClaims.State.goto]
      omega
    rw [hnow,State.put_goto_put_goto,htaken] at hreplay
    refine ⟨⟨(SubqueueClaims.alone (s.inner p) i n).map (.inner i),?_,hreplay⟩,rfl,?_,rfl⟩
    · intro a ha
      obtain ⟨b,-,rfl⟩ := List.mem_map.mp ha
      rfl
    · intro j hj
      exact (Function.update_of_ne hj _ _).trans (Function.update_of_ne hj _ _).symm
  · rw [available] at hpos
    omega
  · intro hzero
    rw [hzero] at hlength
    rw [hzero,List.eq_nil_of_length_eq_zero hlength]
    rfl

/-- The loop over all producers, alone: the consumer finishes, or it has taken
something if there was something to take. -/
theorem solo_sweep (hcard : Fintype.card ι < 2147483648) (hw : 0 < w) (hblock : 0 < block)
    (hfits : block ≤ half w) {best : Option ι} {rest : List ι} {need : ℕ} {s : State ι α}
    (h : Whole spins w block s) (hsmall : needs s ≤ half w)
    (hi : s.control i=.searching r need (.sweeping best rest)) :
    ∃ s',Solo spins w block i s s' ∧
      (s'.control i=.idle ∨ ∃ need',need' ≤ need ∧ s'.control i=.searching r need' .looking ∧
        ((∃ p∈rest,best≠some p ∧ 0 < available (s.inner p)) → need' < need)) := by
  induction rest generalizing s need with
  | nil =>
    have hstep : next spins w block s (.advance i)=
        some (s.goto i (.searching r need .looking)) := by
      simp only [next,hi]
    refine ⟨_,Solo.walk rfl (Nat.zero_le _) hstep,.inr ⟨need,le_rfl,s.goto_control i _,?_⟩⟩
    rintro ⟨p,hp,-⟩
    cases hp
  | cons p rest ih =>
    by_cases hbest : best=some p
    · have hstep : next spins w block s (.advance i)=
          some (s.goto i (.searching r need (.sweeping best rest))) := by
        simp only [next,hi]
        exact if_pos hbest
      have hwalk : Solo spins w block i s _ := Solo.walk rfl (Nat.zero_le _) hstep
      have hneeds := hwalk.needs
      rw [State.goto_control,hi] at hneeds
      simp only [Control.need] at hneeds
      obtain ⟨s',hsolo,hend⟩ := ih (hwalk.whole hcard hw hblock hfits h) (by omega)
        (State.goto_control _ _ _)
      refine ⟨s',hwalk.trans hsolo,hend.imp_right ?_⟩
      rintro ⟨need',hle,hcontrol,hless⟩
      refine ⟨need',hle,hcontrol,?_⟩
      rintro ⟨p',hp',hne,hpos⟩
      refine hless ⟨p',(List.mem_cons.mp hp').resolve_left fun heq => hne ?_,hne,hpos⟩
      rw [heq,hbest]
    · have hstep : next spins w block s (.advance i)=
          s.enter w block i r need p (.trying best p rest) := by
        simp only [next,hi]
        exact if_neg hbest
      obtain ⟨n,u,hvisit,hsome,hnone⟩ := visit hw hblock hfits h hsmall hi rfl rfl
        (rfl : (Act.advance i : Act ι α).thread=i) (Nat.zero_le _) hstep
      by_cases hleft : need-n=0
      · refine ⟨_,hvisit,.inl ?_⟩
        rw [State.goto_control,afterDequeue,if_pos hleft]
      · rw [afterDequeue,if_neg hleft] at hvisit
        have hneeds := hvisit.needs
        rw [State.goto_control,hi] at hneeds
        simp only [Control.need] at hneeds
        obtain ⟨s',hsolo,hend⟩ := ih (hvisit.whole hcard hw hblock hfits h) (by omega)
          (State.goto_control _ _ _)
        refine ⟨s',hvisit.trans hsolo,hend.imp_right ?_⟩
        rintro ⟨need',hle,hcontrol,hless⟩
        refine ⟨need',by omega,hcontrol,?_⟩
        rintro ⟨p',hp',hne,hpos⟩
        by_cases hzero : n=0
        · rcases List.mem_cons.mp hp' with rfl|hp'
          · have hn := hsome hpos
            omega
          · rw [hnone hzero] at hless
            have hsame : (s.put p (s.inner p)).inner p'=s.inner p' := by
              rw [State.put,Function.update_eq_self]
            have hlt := hless ⟨p',hp',hne,by rw [State.goto_inner,hsame]; exact hpos⟩
            omega
        · omega

omit [DecidableEq ι] [Fintype ι] in
/-- The length of a sub-queue which is not full, from up to date values. -/
theorem sizeApprox_eq (hw : 0 < w) {head tail : ℕ} (hle : head ≤ tail)
    (hnear : tail < head+half w) :
    sizeApprox (word w tail) (word w head)=tail-head := by
  obtain ⟨hless,hvalue⟩ :=
    SubqueueClaims.remaining_eq (o := 0) hw (hle.trans (Nat.le_add_right _ _)) hnear
  rw [Nat.add_zero,show word w 0=0 from rfl,sub_zero] at hless hvalue
  rw [sizeApprox,hless]
  by_cases hlt : head < tail
  · rw [if_pos (decide_eq_true hlt),hvalue hlt]
  · rw [if_neg (by rw [decide_eq_true_iff]; exact hlt)]
    omega

/-- Every sub-queue has no more elements than fit, and some if anything is
available. -/
theorem length_spec (hw : 0 < w) (hblock : 0 < block) (hfits : block ≤ half w)
    (h : Whole spins w block s) (p : ι) :
    sizeApprox (word w (s.inner p).tail) (word w (s.inner p).head)=
        (s.inner p).tail-(s.inner p).head ∧
      (0 < available (s.inner p) → (s.inner p).head < (s.inner p).tail) := by
  obtain ⟨acts,hacts⟩ := h.inner p
  obtain ⟨⟨fate,hbooked⟩,hroomy,-⟩ := SubqueueClaims.invariants_of_reaches hw hblock hfits hacts
  have hspent := hbooked.spent
  have hle := hbooked.head_add_claims_le
  have hpublished := hbooked.published
  have hcovers := hroomy.covers
  have hseen := hroomy.seen
  have hnear := hroomy.near
  refine ⟨sizeApprox_eq hw (by omega) (by omega),fun hpos => ?_⟩
  rw [available] at hpos
  omega

/-- The loop over the lengths, alone: it ends, with a best producer if there is
one which is not empty. -/
theorem solo_scan (hcard : Fintype.card ι < 2147483648) (hw : 0 < w) (hblock : 0 < block)
    (hfits : block ≤ half w) {rest : List ι} {count : ℕ} {best : Option ι} {bestSize : ℕ}
    {s : State ι α} (h : Whole spins w block s)
    (hi : s.control i=.searching r need (.scanning rest count best bestSize))
    (hzero : count=0 → bestSize=0) (hbest : count≠0 → best.isSome=true) :
    ∃ rest' count' best' bestSize',
      Solo spins w block i s
        (s.goto i (.searching r need (.scanning rest' count' best' bestSize'))) ∧
      (3 ≤ count' ∨ rest'=[]) ∧ (count'≠0 → best'.isSome=true) ∧ (count≠0 → count'≠0) ∧
      ((∃ p∈rest,(s.inner p).head < (s.inner p).tail) → count'≠0) := by
  induction rest generalizing s count best bestSize with
  | nil =>
    refine ⟨[],count,best,bestSize,?_,.inr rfl,hbest,fun hc => hc,?_⟩
    · rw [State.goto_self hi]
      exact Solo.refl s
    · rintro ⟨p,hp,-⟩
      cases hp
  | cons p rest ih =>
    by_cases hthree : 3 ≤ count
    · refine ⟨p::rest,count,best,bestSize,?_,.inl hthree,hbest,fun hc => hc,fun _ => by omega⟩
      rw [State.goto_self hi]
      exact Solo.refl s
    · obtain ⟨hsize,-⟩ := length_spec hw hblock hfits h p
      have hstep : next spins w block s (.size i (s.inner p).tail (s.inner p).head)=
          some (s.goto i (.searching r need (
            if 0 < (s.inner p).tail-(s.inner p).head then
              if bestSize < (s.inner p).tail-(s.inner p).head then
                .scanning rest (count+1) (some p) ((s.inner p).tail-(s.inner p).head)
              else .scanning rest (count+1) best bestSize
            else .scanning rest count best bestSize))) := by
        simp only [next,hi,hsize]
        exact if_pos ⟨by omega,le_rfl,le_rfl⟩
      have hturn : ∃ count₁ best₁ size₁,
          (if 0 < (s.inner p).tail-(s.inner p).head then
              if bestSize < (s.inner p).tail-(s.inner p).head then
                .scanning rest (count+1) (some p) ((s.inner p).tail-(s.inner p).head)
              else .scanning rest (count+1) best bestSize
            else .scanning rest count best bestSize)=Search.scanning rest count₁ best₁ size₁ ∧
          (count₁=0 → size₁=0) ∧ (count₁≠0 → best₁.isSome=true) ∧ (count≠0 → count₁≠0) ∧
          ((s.inner p).head < (s.inner p).tail → count₁≠0) := by
        split_ifs with hpos hlarger
        · exact ⟨_,_,_,rfl,fun hc => absurd hc (Nat.succ_ne_zero _),fun _ => rfl,
            fun _ => Nat.succ_ne_zero _,fun _ => Nat.succ_ne_zero _⟩
        · refine ⟨_,_,_,rfl,fun hc => absurd hc (Nat.succ_ne_zero _),fun _ => hbest fun hc => ?_,
            fun _ => Nat.succ_ne_zero _,fun _ => Nat.succ_ne_zero _⟩
          have hbestSize := hzero hc
          omega
        · exact ⟨_,_,_,rfl,hzero,hbest,fun hc => hc,fun hlt => by omega⟩
      obtain ⟨count₁,best₁,size₁,hsearch,hzero₁,hbest₁,hkept,hfound⟩ := hturn
      rw [hsearch] at hstep
      have hwalk : Solo spins w block i s _ := Solo.walk rfl (Nat.zero_le _) hstep
      obtain ⟨rest',count',best',bestSize',hsolo,hdone,hsome,hkept',hall⟩ :=
        ih (hwalk.whole hcard hw hblock hfits h) (State.goto_control _ _ _) hzero₁ hbest₁
      rw [State.goto_goto] at hsolo
      refine ⟨rest',count',best',bestSize',hwalk.trans hsolo,hdone,hsome,
        fun hc => hkept' (hkept hc),?_⟩
      rintro ⟨p',hp',hlt⟩
      rcases List.mem_cons.mp hp' with rfl|hp'
      · exact hkept' (hfound hlt)
      · exact hall ⟨p',hp',hlt⟩

/-- One round of the search, alone: the consumer finishes or has taken
something. -/
theorem solo_round (hcard : Fintype.card ι < 2147483648) (hw : 0 < w) (hblock : 0 < block)
    (hfits : block ≤ half w) (h : Whole spins w block s) (hsmall : needs s ≤ half w)
    (hi : s.control i=.searching r need .looking) :
    ∃ s',Solo spins w block i s s' ∧
      (s'.control i=.idle ∨ ∃ need',need' < need ∧ s'.control i=.searching r need' .looking) := by
  obtain ⟨p,hp,hpos⟩ := exists_available hcard hw hblock hfits h (by rw [hi]; rfl)
    (by rw [hi]; exact h.matched.positive i r need _ hi)
  cases hsingle : r.single with
  | false =>
    have hstep : next spins w block s (.look i 0)=
        some (s.goto i (.searching r need (.sweeping none s.producers))) := by
      simp only [next,hi,hsingle,List.drop_zero]
      rfl
    have hwalk : Solo spins w block i s _ := Solo.walk rfl (Nat.zero_le _) hstep
    have hneeds := hwalk.needs
    rw [State.goto_control,hi] at hneeds
    simp only [Control.need] at hneeds
    obtain ⟨s',hsolo,hend⟩ := solo_sweep hcard hw hblock hfits
      (hwalk.whole hcard hw hblock hfits h) (by omega) (State.goto_control _ _ _)
    refine ⟨s',hwalk.trans hsolo,hend.imp_right ?_⟩
    rintro ⟨need',-,hcontrol,hless⟩
    exact ⟨need',hless ⟨p,hp,(Option.some_ne_none p).symm,hpos⟩,hcontrol⟩
  | true =>
    have hstep : next spins w block s (.look i 0)=
        some (s.goto i (.searching r need (.scanning s.producers 0 none 0))) := by
      simp only [next,hi,hsingle,List.drop_zero]
      rfl
    have hwalk : Solo spins w block i s _ := Solo.walk rfl (Nat.zero_le _) hstep
    obtain ⟨rest,count,best,bestSize,hscan,hdone,hbest,-,hfound⟩ := solo_scan hcard hw hblock hfits
      (hwalk.whole hcard hw hblock hfits h) (State.goto_control _ _ _) (fun _ => rfl)
      (fun hc => absurd rfl hc)
    rw [State.goto_goto] at hscan
    have hcount : count≠0 := hfound ⟨p,hp,(length_spec hw hblock hfits h p).2 hpos⟩
    obtain ⟨b,rfl⟩ := Option.isSome_iff_exists.mp (hbest hcount)
    have hfirst := hwalk.trans hscan
    have hneeds := hfirst.needs
    rw [State.goto_control,hi] at hneeds
    simp only [Control.need] at hneeds
    have hchoose : next spins w block
        (s.goto i (.searching r need (.scanning rest count (some b) bestSize))) (.choose i)=
        (s.goto i (.searching r need (.scanning rest count (some b) bestSize))).enter w block i r
          need b (.first b) := by
      simp only [next,State.goto_control,Option.bind_some]
      rw [if_pos hdone,if_neg hcount]
    obtain ⟨n,u,hvisit,hsome,hnone⟩ := visit hw hblock hfits (hfirst.whole hcard hw hblock hfits h)
      (by omega) (State.goto_control _ _ _) rfl rfl (rfl : (Act.choose i : Act ι α).thread=i)
      (Nat.zero_le _) hchoose
    by_cases hleft : need-n=0
    · refine ⟨_,hfirst.trans hvisit,.inl ?_⟩
      rw [State.goto_control,afterDequeue,if_pos hleft]
    · -- The best producer had too little, so the consumer tries all others.
      rw [afterDequeue,if_neg hleft] at hvisit
      have hlook : next spins w block (((s.goto i (.searching r need (.scanning rest count
          (some b) bestSize))).put b u).goto i (.searching r (need-n) (.missed b))) (.look i 0)=
          some ((((s.goto i (.searching r need (.scanning rest count (some b) bestSize))).put b
            u).goto i (.searching r (need-n) (.missed b))).goto i
            (.searching r (need-n) (.sweeping (some b) s.producers))) := by
        simp only [next,State.goto_control,List.drop_zero]
        rfl
      have hmissed := (hfirst.trans hvisit).trans (Solo.walk rfl (Nat.zero_le _) hlook)
      have hneeds' := hmissed.needs
      rw [State.goto_control,hi] at hneeds'
      simp only [Control.need] at hneeds'
      obtain ⟨s',hsolo,hend⟩ := solo_sweep hcard hw hblock hfits
        (hmissed.whole hcard hw hblock hfits h) (by omega) (State.goto_control _ _ _)
      refine ⟨s',hmissed.trans hsolo,hend.imp_right ?_⟩
      rintro ⟨need',hle,hcontrol,hless⟩
      refine ⟨need',?_,hcontrol⟩
      by_cases hzero : n=0
      · have hne : p≠b := by
          rintro rfl
          have hn := hsome hpos
          omega
        have hlt := hless ⟨p,hp,fun heq => hne (Option.some.inj heq).symm,by
          rw [State.goto_inner,State.goto_inner,State.put_inner_of_ne _ hne]
          exact hpos⟩
        omega
      · omega

/-- All rounds of the search, alone. -/
theorem solo_finishes (hcard : Fintype.card ι < 2147483648) (hw : 0 < w) (hblock : 0 < block)
    (hfits : block ≤ half w) {need : ℕ} {s : State ι α} (h : Whole spins w block s)
    (hsmall : needs s ≤ half w) (hi : s.control i=.searching r need .looking) :
    ∃ s',Solo spins w block i s s' ∧ s'.control i=.idle := by
  induction need using Nat.strong_induction_on generalizing s with
  | _ need ih =>
    obtain ⟨s₁,hround,hend⟩ := solo_round hcard hw hblock hfits h hsmall hi
    rcases hend with hidle|⟨need',hlt,hcontrol⟩
    · exact ⟨s₁,hround,hidle⟩
    · have hneeds := hround.needs
      rw [hcontrol,hi] at hneeds
      simp only [Control.need] at hneeds
      obtain ⟨s',hsolo,hidle⟩ := ih need' hlt (hround.whole hcard hw hblock hfits h) (by omega)
        hcontrol
      exact ⟨s',hround.trans hsolo,hidle⟩

end Totals

end FastEventSystem.BlockingQueue
