import FastEventSystem.ChannelNetwork

/-!
# Counts and emptied entries of a network

Every queue of a network agrees with its semaphore, up to the receives in
progress. A delayed channel has an emptied entry only while its own dispatch
runs, at the back. This is where acyclicity matters: the calls of a dispatch
only reach channels behind the dispatched one, so nothing is sent to a channel
between the move out of its back entry and the pop.
-/

namespace FastEventSystem.NetworkSound

open AcyclicFlow MessageOrder CountingSemaphore DelayChannel FastChannel SyncRegistry
  ChannelNetwork

variable {η S F D α : Type*}

/-- Nothing is left to do. -/
structure Quiescent (s : State η S F D α) : Prop where
  /-- The undelayed queues are empty. -/
  fast : ∀ f,(s.fast f).queue=[]
  /-- The delayed queues are empty. -/
  delay : ∀ d,(s.delay d).queue=[]
  /-- No call is to be made. -/
  calls : s.calls=[]
  /-- No pop is due. -/
  running : s.running=none

/-- The steps which get something done, unlike sends and clock readings. -/
def isWork : Act S F D α → Bool
  | .tick _ | .sendSync .. | .sendFast .. | .sendDelay .. => false
  | .getFast .. | .semWait _ | .handOver _ | .call _ | .popBack => true

/-- Whether the pop of a channel is due. -/
def popDue [DecidableEq D] (s : State η S F D α) (d : D) : ℕ := if s.running=some d then 1 else 0

/-- The invariant of every run. -/
structure Sound [DecidableEq D] (net : Network η S F D) (s : State η S F D α) : Prop where
  /-- Every tuple of an undelayed queue is counted. -/
  fastCount : ∀ f,(s.fast f).queue.length=(s.fast f).sem.len
  /-- Every entry of a delayed queue is counted, or taken by a receive. -/
  delayCount : ∀ d,(s.delay d).queue.length=(s.delay d).sem.len+s.waiting d+popDue s d
  /-- Without a dispatch of the channel all its entries are intact. -/
  resting : ∀ d,s.running≠some d → ∀ m∈(s.delay d).queue,m.Intact
  /-- During its dispatch the back entry is emptied, and only that one. -/
  emptied : ∀ d,s.running=some d → ∃ b rest,(s.delay d).queue=b::rest ∧ b.data=none ∧
    ∀ m∈rest,m.Intact
  /-- The calls of the dispatch lead to channels behind it. -/
  ahead : ∀ d,s.running=some d → ∀ t∈s.calls,∀ c,target t.method=some c →
    Relation.TransGen net.wiring.Feeds (.delay d) c

/-- A call never sends to the channel being dispatched. -/
theorem Sound.target_ne [DecidableEq D] {net : Network η S F D} {s : State η S F D α}
    (h : Sound net s) {d : D} (hrun : s.running=some d) {t : Call η S F D α} (ht : t∈s.calls) :
    target t.method≠some (.delay d) := by
  intro hc
  exact net.acyclic (.delay d) (h.ahead d hrun t ht (.delay d) hc)

/-- Starting a dispatch of a channel behind the running one. -/
theorem Sound.dispatch [DecidableEq D] {net : Network η S F D} {s : State η S F D α}
    (h : Sound net s) {c : Chan S F D} (data : Cell S F D α)
    (hc : ∀ d,s.running=some d → Relation.TransGen net.wiring.Feeds (.delay d) c ∨
      .delay d=c) : Sound net (s.dispatch net c data) := by
  refine ⟨h.fastCount,h.delayCount,h.resting,h.emptied,?_⟩
  intro d hrun t ht c' hc'
  rcases List.mem_append.mp ht with ht|ht
  · obtain ⟨i,hi,-⟩ := mem_operatorCall ht
    have hfeeds : net.wiring.Feeds c c' := ⟨t.method,List.mem_of_getElem? hi,hc'⟩
    rcases hc d hrun with hbehind|heq
    · exact hbehind.tail hfeeds
    · exact .single (heq ▸ hfeeds)
  · exact h.ahead d hrun t ht c' hc'

section Fast

variable [DecidableEq F] [DecidableEq D]

/-- Replacing an undelayed queue by another counted one. -/
theorem Sound.updateFast {net : Network η S F D} {s : State η S F D α} (h : Sound net s)
    {f : F} {c : AsyncFast (Cell S F D α)} (hc : c.queue.length=c.sem.len) :
    Sound net {s with fast := Function.update s.fast f c} := by
  refine ⟨?_,h.delayCount,h.resting,h.emptied,h.ahead⟩
  intro g
  by_cases hg : g=f
  · subst hg
    change (Function.update s.fast g c g).queue.length=(Function.update s.fast g c g).sem.len
    rw [Function.update_self]
    exact hc
  · change (Function.update s.fast f c g).queue.length=(Function.update s.fast f c g).sem.len
    rw [Function.update_of_ne hg]
    exact h.fastCount g

/-- A send to an undelayed channel is counted. -/
theorem Sound.sendFast {net : Network η S F D} {s : State η S F D α} (h : Sound net s)
    (f : F) (data : Cell S F D α) : Sound net (s.sendFast f data) := by
  refine h.updateFast ?_
  have hold := h.fastCount f
  change ((s.fast f).queue++[_]).length=(s.fast f).sem.len+1
  rw [List.length_append,List.length_singleton]
  omega

end Fast

section Delay

variable [DecidableEq D]

/-- A send to a delayed channel which is not being dispatched. -/
theorem Sound.sendDelay {net : Network η S F D} {s : State η S F D α} (h : Sound net s)
    {d : D} (hd : s.running≠some d) (priority delayPoint : ℤ) (data : Cell S F D α)
    (std : StdSort (Cell S F D α)) :
    Sound net (s.sendDelay d priority delayPoint data std) := by
  have hother : ∀ {e},e≠d → ((s.sendDelay d priority delayPoint data std).delay e)=s.delay e :=
    fun he => Function.update_of_ne he _ _
  have hself : ((s.sendDelay d priority delayPoint data std).delay d)=
      (s.delay d).operatorCall priority delayPoint data std := Function.update_self _ _ _
  refine ⟨h.fastCount,?_,?_,?_,h.ahead⟩
  · intro e
    by_cases he : e=d
    · subst he
      have hold := h.delayCount e
      have hlen := operatorCall_length (s.delay e) priority delayPoint data std
      have hsem := operatorCall_sem (s.delay e) priority delayPoint data std
      rw [hself]
      change _=_+s.waiting e+popDue s e
      omega
    · rw [hother he]
      exact h.delayCount e
  · intro e hrun m hm
    by_cases he : e=d
    · subst he
      rw [hself] at hm
      have hperm := operatorCall_perm (s.delay e) priority delayPoint data std
      rcases List.mem_cons.mp (hperm.subset hm) with rfl|hm
      · rfl
      · exact h.resting e hrun m hm
    · rw [hother he] at hm
      exact h.resting e hrun m hm
  · intro e hrun
    have he : e≠d := by
      rintro rfl
      exact hd hrun
    rw [hother he]
    exact h.emptied e hrun

/-- A receive which passes the semaphore is counted as waiting. -/
theorem Sound.semWait {net : Network η S F D} {s : State η S F D α} (h : Sound net s)
    {d : D} {c : AsyncDelay (Cell S F D α)} (hw : (s.delay d).semWait=some c) :
    Sound net {s with
      delay := Function.update s.delay d c
      waiting := Function.update s.waiting d (s.waiting d+1)} := by
  obtain ⟨hqueue,hsem⟩ := DelayChannel.semWait_eq_some hw
  have hentries : ∀ e,(Function.update s.delay d c e).queue=(s.delay e).queue := by
    intro e
    by_cases he : e=d
    · rw [he,Function.update_self,hqueue]
    · rw [Function.update_of_ne he]
  refine ⟨h.fastCount,?_,?_,?_,h.ahead⟩
  · intro e
    have hold := h.delayCount e
    change (Function.update s.delay d c e).queue.length=(Function.update s.delay d c e).sem.len+
      Function.update s.waiting d (s.waiting d+1) e+popDue s e
    rw [hentries]
    by_cases he : e=d
    · subst he
      rw [Function.update_self,Function.update_self]
      omega
    · rw [Function.update_of_ne he,Function.update_of_ne he]
      exact hold
  · intro e hrun m hm
    exact h.resting e hrun m (hentries e ▸ hm)
  · intro e hrun
    obtain ⟨b,rest,hq,hb⟩ := h.emptied e hrun
    exact ⟨b,rest,(hentries e).trans hq,hb⟩

/-- Handing over empties the back entry of an intact queue. -/
theorem Sound.handOver {net : Network η S F D} {s : State η S F D α} (h : Sound net s)
    {d : D} {t : Message (Cell S F D α)} {c : AsyncDelay (Cell S F D α)} (hcalls : s.calls=[])
    (hrun : s.running=none) (hwait : 0 < s.waiting d) (hm : (s.delay d).moveBack=some (t,c)) :
    Sound net {s with
      delay := Function.update s.delay d c
      waiting := Function.update s.waiting d (s.waiting d-1)
      running := some d} := by
  obtain ⟨rest,hq,hq',hsem⟩ := moveBack_eq_some hm
  have hidle : ∀ e,s.running≠some e := by
    intro e he
    rw [hrun] at he
    cases he
  have hzero : ∀ e,popDue s e=0 := fun e => if_neg (hidle e)
  refine ⟨h.fastCount,?_,?_,?_,?_⟩
  · intro e
    have hold := h.delayCount e
    rw [hzero] at hold
    change (Function.update s.delay d c e).queue.length=(Function.update s.delay d c e).sem.len+
      Function.update s.waiting d (s.waiting d-1) e+if some d=some e then 1 else 0
    by_cases he : e=d
    · subst he
      rw [Function.update_self,Function.update_self,if_pos rfl,hq',hsem]
      rw [hq] at hold
      rw [List.length_cons] at hold ⊢
      omega
    · have hne : ¬some d=some e := fun heq => he (Option.some.inj heq).symm
      rw [Function.update_of_ne he,Function.update_of_ne he,if_neg hne]
      exact hold
  · intro e hne m hmem
    have he : e≠d := fun he => hne (congrArg some he.symm)
    change m∈(Function.update s.delay d c e).queue at hmem
    rw [Function.update_of_ne he] at hmem
    exact h.resting e (hidle e) m hmem
  · intro e he
    cases he
    have hintact := h.resting d (hidle d)
    rw [hq] at hintact
    refine ⟨t.movedFrom,rest,?_,rfl,fun m hmem => hintact m (List.mem_cons_of_mem _ hmem)⟩
    change (Function.update s.delay d c d).queue=_
    rw [Function.update_self]
    exact hq'
  · intro e _ u hu
    change u∈s.calls at hu
    rw [hcalls] at hu
    cases hu

/-- The pop removes the emptied entry. -/
theorem Sound.popBack {net : Network η S F D} {s : State η S F D α} (h : Sound net s)
    {d : D} {b : Message (Cell S F D α)} {c : AsyncDelay (Cell S F D α)}
    (hrun : s.running=some d) (hp : (s.delay d).popBack=some (b,c)) :
    b.data=none ∧
      Sound net {s with delay := Function.update s.delay d c,running := none} := by
  obtain ⟨hq,hsem⟩ := popBack_eq_some hp
  obtain ⟨b',rest,hq',hb,hintact⟩ := h.emptied d hrun
  rw [hq,List.cons.injEq] at hq'
  refine ⟨hq'.1 ▸ hb,h.fastCount,?_,?_,?_,?_⟩
  · intro e
    have hold := h.delayCount e
    unfold popDue at hold
    change (Function.update s.delay d c e).queue.length=(Function.update s.delay d c e).sem.len+
      s.waiting e+0
    by_cases he : e=d
    · subst he
      rw [if_pos hrun,hq,List.length_cons] at hold
      rw [Function.update_self,hsem]
      omega
    · have hne : ¬s.running=some e := by
        rw [hrun]
        exact fun heq => he (Option.some.inj heq).symm
      rw [if_neg hne] at hold
      rw [Function.update_of_ne he]
      exact hold
  · intro e _ m hmem
    change m∈(Function.update s.delay d c e).queue at hmem
    by_cases he : e=d
    · rw [he,Function.update_self,hq'.2] at hmem
      exact hintact m hmem
    · rw [Function.update_of_ne he] at hmem
      refine h.resting e ?_ m hmem
      rw [hrun]
      exact fun heq => he (Option.some.inj heq).symm
  · intro e he
    cases he
  · intro e he
    cases he

end Delay

variable [DecidableEq F] [DecidableEq D]

/-- A call keeps the invariant: bridging lambdas send behind the running
dispatch. -/
theorem Sound.call {net : Network η S F D} {s : State η S F D α} (h : Sound net s)
    {t : Call η S F D α} {rest : List (Call η S F D α)} (hcalls : s.calls=t::rest)
    (std : StdSort (Cell S F D α)) :
    Sound net ({s with calls := rest}.invoke net t std) := by
  have ht : t∈s.calls := by
    rw [hcalls]
    exact List.mem_cons_self
  have hne : ∀ d,s.running=some d → target t.method≠some (.delay d) :=
    fun d hrun => h.target_ne hrun ht
  have hahead : ∀ d,s.running=some d → ∀ c,target t.method=some c →
      Relation.TransGen net.wiring.Feeds (.delay d) c := fun d hrun => h.ahead d hrun t ht
  have hrest : Sound net {s with calls := rest,made := ⟨t.method,t.data,s.now⟩::s.made} := by
    refine ⟨h.fastCount,h.delayCount,h.resting,h.emptied,?_⟩
    intro d hrun u hu
    exact h.ahead d hrun u (hcalls ▸ List.mem_cons_of_mem _ hu)
  obtain ⟨m,data⟩ := t
  cases m with
  | functor f => exact hrest
  | bind obj ptrFunc => exact hrest
  | sync callback => exact hrest.dispatch data fun d hrun => .inl (hahead d hrun _ rfl)
  | fast queue => exact hrest.sendFast queue data
  | delay priority delay queue =>
    exact hrest.sendDelay (fun hrun => hne queue hrun rfl) priority _ data std

/-- Every step of every schedule keeps the invariant. -/
theorem sound_step {net : Network η S F D} {s s' : State η S F D α} {a : Act S F D α}
    (hi : Sound net s) (h : next net s a=some s') : Sound net s' := by
  cases next_effect h with
  | tick reading => exact ⟨hi.fastCount,hi.delayCount,hi.resting,hi.emptied,hi.ahead⟩
  | sendSync c x hcalls hrun =>
    have hnote : Sound net (s.note ⟨x,.sync c,s.now,[]⟩) :=
      ⟨hi.fastCount,hi.delayCount,hi.resting,hi.emptied,hi.ahead⟩
    refine hnote.dispatch _ fun d hd => ?_
    cases hrun.symm.trans hd
  | sendFast f x hcalls hrun =>
    have hnote : Sound net (s.note ⟨x,.fast f,s.now,[]⟩) :=
      ⟨hi.fastCount,hi.delayCount,hi.resting,hi.emptied,hi.ahead⟩
    exact hnote.sendFast f _
  | sendDelay d priority delayPoint x std hcalls hrun =>
    have hnote : Sound net (s.note ⟨x,.delay d,delayPoint,[]⟩) :=
      ⟨hi.fastCount,hi.delayCount,hi.resting,hi.emptied,hi.ahead⟩
    refine hnote.sendDelay ?_ priority delayPoint _ std
    intro hd
    cases hrun.symm.trans hd
  | getFast f position t c c' hcalls hrun hw hd =>
    obtain ⟨hqueue,hsem⟩ := FastChannel.semWait_eq_some hw
    obtain ⟨hperm,hsem'⟩ := waitDequeue_eq_some hd
    have hcount : c'.queue.length=c'.sem.len := by
      have hold := hi.fastCount f
      have hlen := hperm.length_eq
      rw [hqueue,List.length_cons] at hlen
      rw [hsem']
      omega
    refine (hi.updateFast hcount).dispatch _ fun d hd => ?_
    cases hrun.symm.trans hd
  | semWait d c hcalls hrun hw => exact hi.semWait hw
  | handOver d t c hcalls hrun hwait hm hdue =>
    refine (hi.handOver hcalls hrun hwait hm).dispatch _ fun e he => ?_
    cases he
    exact .inr rfl
  | call std t rest hcalls => exact hi.call hcalls std
  | popBack d b c hcalls hrun hp => exact (hi.popBack hrun hp).2

omit [DecidableEq F] in
/-- All queues are empty. -/
theorem sound_start (net : Network η S F D) (now : ℤ) :
    Sound net (.start now : State η S F D α) where
  fastCount _ := rfl
  delayCount _ := rfl
  resting _ _ _ h := False.elim (List.not_mem_nil h)
  emptied _ h := nomatch h
  ahead _ h := nomatch h

/-- A receive from a non-empty undelayed channel succeeds, whichever tuple the
queue hands out. -/
theorem getFast_accepted {net : Network η S F D} {s : State η S F D α} (hi : Sound net s)
    (hidle : s.idle=true) {f : F} {position : ℕ}
    (hpos : position < (s.fast f).queue.length) :
    ∃ s',next net s (.getFast f position)=some s' := by
  have hcount := hi.fastCount f
  have hsem : 0 < (s.fast f).sem.len := by omega
  simp only [next,hidle,if_true,AsyncFast.semWait,Semaphore.wait,gt_iff_lt,hsem,
    Option.map_some,Option.bind_some,AsyncFast.waitDequeue,List.getElem?_eq_getElem hpos]
  exact ⟨_,rfl⟩

/-- A receive which waits hands over once the clock has reached the back
entry. -/
theorem handOver_accepted (net : Network η S F D) {s : State η S F D α} (hidle : s.idle=true)
    {d : D} {b : Message (Cell S F D α)} {rest : List (Message (Cell S F D α))}
    (hq : (s.delay d).queue=b::rest) (hwait : 0 < s.waiting d) (hdue : b.timestamp ≤ s.now) :
    ∃ s',next net s (.handOver d)=some s' := by
  have hnot : ¬s.now < b.timestamp := by omega
  simp only [next,hidle,hwait,and_self,if_true,AsyncDelay.moveBack,hq,hnot,if_false]
  exact ⟨_,rfl⟩

/-- On a non-empty delayed channel where nobody waits a receive begins. -/
theorem semWait_accepted {net : Network η S F D} {s : State η S F D α} (hi : Sound net s)
    (hidle : s.idle=true) {d : D} (hq : (s.delay d).queue≠[]) (hwait : s.waiting d=0) :
    ∃ s',next net s (.semWait d)=some s' := by
  have hcount := hi.delayCount d
  have hlen := List.length_pos_of_ne_nil hq
  have hrun := ((idle_iff s).mp hidle).2
  have hpop : popDue s d=0 := by
    unfold popDue
    rw [hrun]
    exact if_neg fun h => nomatch h
  have hsem : 0 < (s.delay d).sem.len := by omega
  simp only [next,hidle,if_true,AsyncDelay.semWait,Semaphore.wait,gt_iff_lt,hsem,Option.map_some]
  exact ⟨_,rfl⟩

/-- The pop after a dispatch succeeds. -/
theorem popBack_accepted {net : Network η S F D} {s : State η S F D α} (hi : Sound net s)
    (hcalls : s.calls=[]) {d : D} (hrun : s.running=some d) :
    ∃ s',next net s .popBack=some s' := by
  obtain ⟨b,rest,hq,-⟩ := hi.emptied d hrun
  simp only [next,hcalls,hrun,AsyncDelay.popBack,hq]
  exact ⟨_,rfl⟩

/-- Between operations, a non-empty queue admits a receive once the clock is
late enough. -/
theorem progress_idle {net : Network η S F D} {s : State η S F D α} (hi : Sound net s)
    (hidle : s.idle=true) (hq : ¬Quiescent s) :
    ∃ reading a s',isWork a=true ∧ next net {s with now := reading} a=some s' := by
  by_cases hfast : ∀ f,(s.fast f).queue=[]
  · by_cases hdelay : ∀ d,(s.delay d).queue=[]
    · obtain ⟨hcalls,hrun⟩ := (idle_iff s).mp hidle
      exact False.elim (hq ⟨hfast,hdelay,hcalls,hrun⟩)
    · obtain ⟨d,hd⟩ := not_forall.mp hdelay
      by_cases hwait : 0 < s.waiting d
      · obtain ⟨b,rest,hqueue⟩ := List.exists_cons_of_ne_nil hd
        obtain ⟨s',hs'⟩ := handOver_accepted net (s := {s with now := b.timestamp}) hidle hqueue
          hwait (le_refl _)
        exact ⟨b.timestamp,.handOver d,s',rfl,hs'⟩
      · obtain ⟨s',hs'⟩ := semWait_accepted hi hidle hd (by omega)
        exact ⟨s.now,.semWait d,s',rfl,hs'⟩
  · obtain ⟨f,hf⟩ := not_forall.mp hfast
    obtain ⟨s',hs'⟩ := getFast_accepted hi hidle (List.length_pos_of_ne_nil hf)
    exact ⟨s.now,.getFast f 0,s',rfl,hs'⟩

/-- Unless nothing is left to do, some step gets something done once the clock
is late enough. -/
theorem progress {net : Network η S F D} {s : State η S F D α} (hi : Sound net s)
    (hq : ¬Quiescent s) :
    ∃ reading a s',isWork a=true ∧ next net {s with now := reading} a=some s' := by
  by_cases hcalls : s.calls=[]
  · by_cases hrun : s.running=none
    · exact progress_idle hi ((idle_iff s).mpr ⟨hcalls,hrun⟩) hq
    · obtain ⟨d,hd⟩ := Option.ne_none_iff_exists'.mp hrun
      obtain ⟨s',hs'⟩ := popBack_accepted hi hcalls hd
      exact ⟨s.now,.popBack,s',rfl,hs'⟩
  · obtain ⟨t,rest,hcons⟩ := List.exists_cons_of_ne_nil hcalls
    have hnext : next net s (.call (insertionSort _))=
        some ({s with calls := rest}.invoke net t (insertionSort _)) := by
      simp only [next,hcons]
    exact ⟨s.now,.call (insertionSort _),_,rfl,hnext⟩

end FastEventSystem.NetworkSound
