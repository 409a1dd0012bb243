import FastEventSystem.DelayCalls
import FastEventSystem.DispatchLayers

/-!
# Delivery of one delayed channel: exactly once, in order, never early

The central invariant describes runs in which handlers return and may send to
the channel and receive from it in turn, as long as no emptied entry gets into
their way. The vector and the messages being dispatched fit together; its
intact entries are exactly the messages sent and not yet handed over. Handlers
which do not call back at all are a special case. Where the condition is left,
a pop or a nested receive goes wrong; a closing run shows how.
-/

namespace FastEventSystem.DelayDelivery

open SortedVector MessageOrder CountingSemaphore DelayChannel DispatchLayers DelayCalls GuardedRuns

variable {ι α : Type*}

/-- No subscriber throws. -/
def HandlersReturn (_ : State ι α) : Act ι α → Prop
  | .handlerThrows _ => False
  | _ => True

instance (s : State ι α) : (a : Act ι α) → Decidable (HandlersReturn s a)
  | .handlerThrows _ => inferInstanceAs (Decidable False)
  | .operatorCall .. | .get _ | .update _ | .wait .. | .poll .. | .semWait _ | .readClock ..
  | .handlerReturns _ | .popBack _ => inferInstanceAs (Decidable True)

/-- What may happen to the channel while messages are dispatched. A send
leaves no intact entry tied with a dispatched message. A receive finds a due
back entry only when it is strictly more urgent than all of them. When the
subscribers of a message have returned, nothing more urgent is left. -/
def Undisturbing (s : State ι α) : Act ι α → Prop
  | .operatorCall priority delayPoint data _ =>
    ∀ t∈s.dispatching,∀ m∈⟨priority,delayPoint,some data⟩::s.chan.queue,m.Intact → ¬m.Tied t
  | .readClock _ reading =>
    ∀ b∈s.chan.queue.head?,b.timestamp ≤ reading → ∀ t∈s.dispatching,messageComp t b=true
  | .popBack i => ∀ t∈(s.frame i).message,∀ m∈s.chan.queue,messageComp t m=false
  | _ => True

instance (s : State ι α) : (a : Act ι α) → Decidable (Undisturbing s a)
  | .operatorCall .. => inferInstanceAs (Decidable (∀ t∈s.dispatching,_))
  | .readClock .. => inferInstanceAs (Decidable (∀ b∈s.chan.queue.head?,_))
  | .popBack i => inferInstanceAs (Decidable (∀ t∈(s.frame i).message,_))
  | .get _ | .update _ | .wait .. | .poll .. | .semWait _ | .handlerReturns _
  | .handlerThrows _ => inferInstanceAs (Decidable True)

/-- Handlers return, and what they do to the channel during a dispatch does
not disturb it. -/
def Calm (s : State ι α) (a : Act ι α) : Prop := HandlersReturn s a ∧ Undisturbing s a

instance (s : State ι α) (a : Act ι α) : Decidable (Calm s a) :=
  inferInstanceAs (Decidable (_ ∧ _))

/-- What the wait loop guarantees of a message at the moment it is handed over. -/
def Handed.Timely (e : Handed α) : Prop :=
  e.message.Intact ∧ e.message.timestamp ≤ e.reading ∧
    ∀ m∈e.pending,messageComp e.message m=false

/-- The invariant of calm runs. -/
structure Orderly (s : State ι α) : Prop where
  /-- The dispatched messages fit the vector. -/
  layered : Layered s.dispatching s.chan.queue
  /-- No call is twice on the stack. -/
  unique : s.running.Nodup
  /-- The calls on the stack are the ones which dispatch. -/
  active : ∀ i,i∈s.running ↔ (s.frame i).message.isSome=true
  /-- Sent messages are the handed and the intact ones. -/
  split : s.sent.Perm (s.handed.map Handed.message++s.chan.queue.filter fun m => m.Intact)
  /-- Every message was handed over intact, due and most urgent. -/
  handed : ∀ e∈s.handed,Handed.Timely e
  /-- Every pop destroyed the entry of the message just dispatched. -/
  removed : ∀ p∈s.removed,p.2=p.1.movedFrom
  /-- No exception left a dispatch. -/
  thrown : s.thrown=0

/-- Nothing happened yet. -/
theorem orderly_start : Orderly (State.start : State ι α) where
  layered := ⟨List.Pairwise.nil,List.Perm.refl _,List.Pairwise.nil,
    fun _ h => False.elim (List.not_mem_nil h)⟩
  unique := List.nodup_nil
  active _ := by simp only [State.start,List.not_mem_nil,Frame.message,Option.isSome_none,
    Bool.false_eq_true]
  split := List.Perm.refl _
  handed _ h := False.elim (List.not_mem_nil h)
  removed _ h := False.elim (List.not_mem_nil h)
  thrown := rfl

/-- A calm send keeps the fit, and the new message is pending. -/
theorem orderly_operatorCall {s : State ι α} {priority delayPoint : ℤ} {data : α}
    {std : StdSort α} (hi : Orderly s)
    (hok : Calm s (.operatorCall priority delayPoint data std)) :
    Orderly {s with
      chan := s.chan.operatorCall priority delayPoint data std
      sent := ⟨priority,delayPoint,some data⟩::s.sent} where
  layered := layered_operatorCall std hi.layered hok.2
  unique := hi.unique
  active := hi.active
  split := by
    have hperm := (operatorCall_perm s.chan priority delayPoint data std).filter fun m => m.Intact
    rw [List.filter_cons_of_pos (by rfl)] at hperm
    exact (hi.split.cons _).trans (List.perm_middle.symm.trans (hperm.symm.append_left _))
  handed := hi.handed
  removed := hi.removed
  thrown := hi.thrown

variable [DecidableEq ι]

/-- Moving an activation which dispatches the same before and after, possibly
nothing, changes nothing the invariant speaks about. -/
theorem orderly_goto {s : State ι α} {i : ι} {f : Frame α} (hi : Orderly s)
    (hf : f.message=(s.frame i).message) : Orderly (s.goto i f) where
  layered := by
    have hsame : (s.goto i f).dispatching=s.dispatching := filterMap_message_update fun _ => hf
    rw [hsame]
    exact hi.layered
  unique := hi.unique
  active j := by
    change j∈s.running ↔ (Function.update s.frame i f j).message.isSome=true
    by_cases hji : j=i
    · subst hji
      rw [Function.update_self,hf]
      exact hi.active j
    · rw [Function.update_of_ne hji]
      exact hi.active j
  split := hi.split
  handed := hi.handed
  removed := hi.removed
  thrown := hi.thrown

/-- Passing the semaphore does not touch the vector. -/
theorem orderly_semWait {s : State ι α} {i : ι} {chan : AsyncDelay α} (hi : Orderly s)
    (hf : s.frame i=.atSem) (hq : chan.queue=s.chan.queue) :
    Orderly {s.goto i .waiting with chan := chan} := by
  have hg : Orderly (s.goto i .waiting) := orderly_goto hi (by rw [hf]; rfl)
  refine ⟨?_,hg.unique,hg.active,?_,hg.handed,hg.removed,hg.thrown⟩
  · change Layered (s.goto i .waiting).dispatching chan.queue
    rw [hq]
    exact hg.layered
  · change s.sent.Perm (s.handed.map Handed.message++chan.queue.filter fun m => m.Intact)
    rw [hq]
    exact hg.split

/-- A calm hand-over starts one more dispatch: the back entry is intact, due
and most urgent, and stays behind emptied. -/
theorem orderly_handsOver {s : State ι α} {i : ι} {reading : ℤ} {t : Message α}
    {chan : AsyncDelay α} (hi : Orderly s) (hok : Calm s (.readClock i reading))
    (hf : s.frame i=.waiting) (hm : s.chan.moveBack=some (t,chan)) (hdue : t.timestamp ≤ reading) :
    Orderly {s.goto i (.dispatching t 0) with
      chan := chan
      running := i::s.running
      handed := ⟨t,reading,s.chan.queue.tail⟩::s.handed} := by
  obtain ⟨rest,hq,hq',-⟩ := moveBack_eq_some hm
  have hfresh : i∉s.running := by
    rw [hi.active,hf]
    exact Bool.false_ne_true
  have hlayered := hi.layered
  have hsplit := hi.split
  rw [hq] at hlayered hsplit
  have hurgent : ∀ u∈s.dispatching,messageComp u t=true := hok.2 t (by rw [hq]; rfl) hdue
  obtain ⟨hintact,hlayered'⟩ := layered_moveBack hlayered hurgent
  refine ⟨?_,List.nodup_cons.mpr ⟨hfresh,hi.unique⟩,fun j => ?_,?_,fun e he => ?_,
    hi.removed,hi.thrown⟩
  · change Layered (List.filterMap (fun j => (Function.update s.frame i _ j).message)
      (i::s.running)) chan.queue
    rw [List.filterMap_cons,Function.update_self,
      filterMap_message_update fun h => False.elim (hfresh h),hq']
    exact hlayered'
  · change j∈i::s.running ↔ (Function.update s.frame i _ j).message.isSome=true
    by_cases hji : j=i
    · subst hji
      rw [Function.update_self]
      exact iff_of_true List.mem_cons_self rfl
    · rw [Function.update_of_ne hji,List.mem_cons,or_iff_right hji]
      exact hi.active j
  · change s.sent.Perm (t::s.handed.map Handed.message++chan.queue.filter fun m => m.Intact)
    rw [List.filter_cons_of_pos (by simpa using hintact)] at hsplit
    rw [hq',List.filter_cons_of_neg (by simpa using movedFrom_not_intact t)]
    exact hsplit.trans List.perm_middle
  · rcases List.mem_cons.mp he with rfl|he
    · rw [hq,List.tail_cons]
      exact ⟨hintact,hdue,(List.pairwise_cons.mp hlayered.sorted).1⟩
    · exact hi.handed e he

omit [DecidableEq ι] in
/-- The innermost call's message is on top of the dispatched ones. -/
theorem dispatching_cons {s : State ι α} {i : ι} {t : Message α} {k : ℕ} {rest : List ι}
    (hf : s.frame i=.dispatching t k) (hrun : s.running=i::rest) :
    s.dispatching=t::rest.filterMap fun j => (s.frame j).message := by
  rw [State.dispatching,hrun,List.filterMap_cons,hf]
  rfl

/-- A calm pop destroys the entry of its own message. -/
theorem orderly_popBack {s : State ι α} {i : ι} {t b : Message α} {k : ℕ} {rest : List ι}
    {chan : AsyncDelay α} (hi : Orderly s) (hok : Calm s (.popBack i))
    (hf : s.frame i=.dispatching t k) (hrun : s.running=i::rest)
    (hp : s.chan.popBack=some (b,chan)) :
    Orderly {s.goto i .idle with
      chan := chan
      running := rest
      removed := (t,b)::s.removed} := by
  obtain ⟨hq,-⟩ := popBack_eq_some hp
  have hlayered := hi.layered
  have hsplit := hi.split
  rw [dispatching_cons hf hrun] at hlayered
  rw [hq] at hlayered hsplit
  have hnot : messageComp t b=false :=
    hok.2 t (by rw [hf]; rfl) b (by rw [hq]; exact List.mem_cons_self)
  obtain ⟨hb,hlayered'⟩ := layered_popBack hlayered hnot
  have hunique := hi.unique
  rw [hrun,List.nodup_cons] at hunique
  refine ⟨?_,hunique.2,fun j => ?_,?_,hi.handed,fun p hp => ?_,hi.thrown⟩
  · change Layered (List.filterMap (fun j => (Function.update s.frame i _ j).message) rest)
      chan.queue
    rw [filterMap_message_update fun h => False.elim (hunique.1 h)]
    exact hlayered'
  · change j∈rest ↔ (Function.update s.frame i _ j).message.isSome=true
    by_cases hji : j=i
    · subst hji
      rw [Function.update_self]
      exact iff_of_false hunique.1 Bool.false_ne_true
    · have hactive := hi.active j
      rw [hrun,List.mem_cons,or_iff_right hji] at hactive
      rw [Function.update_of_ne hji]
      exact hactive
  · rw [hb,List.filter_cons_of_neg (by simpa using movedFrom_not_intact t)] at hsplit
    exact hsplit
  · rcases List.mem_cons.mp hp with rfl|hp
    · exact hb
    · exact hi.removed p hp

/-- Every calm step keeps the invariant. -/
theorem orderly_step {subscribers : ℕ} {s s' : State ι α} {a : Act ι α} (hi : Orderly s)
    (hok : Calm s a) (h : next subscribers s a=some s') : Orderly s' := by
  cases next_effect h with
  | operatorCall priority delayPoint data std => exact orderly_operatorCall hi hok
  | stays => exact hi
  | moves _ i f hold hnew =>
    exact orderly_goto hi ((message_of_outside hnew).trans (message_of_outside hold).symm)
  | semWait i chan hf hw => exact orderly_semWait hi hf (semWait_eq_some hw).1
  | handsOver i reading t chan hf hm hdue => exact orderly_handsOver hi hok hf hm hdue
  | handlerReturns i t k rest hf hr hk => exact orderly_goto hi (by rw [hf]; rfl)
  | popBack i t b rest chan hf hr hp => exact orderly_popBack hi hok hf hr hp
  | handlerThrows i t k rest hf hr hk => exact False.elim hok.1

/-- The invariant holds throughout every calm run. -/
theorem orderly_of_calm {subscribers : ℕ} {acts : List (Act ι α)} {s : State ι α}
    (h : Reaches (next subscribers) Calm .start acts s) : Orderly s :=
  h.invariant orderly_start orderly_step

/-- The only steps of a dispatch whose handlers do not call back. -/
def DispatchStep (i : ι) : Act ι α → Prop
  | .handlerReturns j => j=i
  | .popBack j => j=i
  | _ => False

instance (i : ι) : (a : Act ι α) → Decidable (DispatchStep i a)
  | .handlerReturns j | .popBack j => inferInstanceAs (Decidable (j=i))
  | .operatorCall .. | .get _ | .update _ | .wait .. | .poll .. | .semWait _ | .readClock ..
  | .handlerThrows _ => inferInstanceAs (Decidable False)

/-- Handlers return normally and do not call back: while subscribers run, the
only steps are their returns and the pop of the same call. -/
def Quiet (s : State ι α) (a : Act ι α) : Prop :=
  HandlersReturn s a ∧ ∀ i∈s.running.head?,DispatchStep i a

instance (s : State ι α) (a : Act ι α) : Decidable (Quiet s a) :=
  inferInstanceAs (Decidable (_ ∧ _))

/-- Nothing is dispatched, or one message whose emptied entry is at the back. -/
def Alone (s : State ι α) : Prop :=
  s.running=[] ∨ ∃ i t k rest,s.running=[i] ∧ s.frame i=.dispatching t k ∧
    s.chan.queue=t.movedFrom::rest

omit [DecidableEq ι] in
/-- Handlers which do not call back do not disturb. -/
theorem Quiet.calm {s : State ι α} {a : Act ι α} (h : Quiet s a) (ho : Orderly s)
    (ha : Alone s) : Calm s a := by
  refine ⟨h.1,?_⟩
  rcases ha with hr|⟨i,t,k,rest,hr,hf,hq⟩
  · have hnone : s.dispatching=[] := by rw [State.dispatching,hr]; rfl
    cases a with
    | operatorCall priority delayPoint data std =>
      intro t ht
      rw [hnone] at ht
      exact False.elim (List.not_mem_nil ht)
    | readClock i reading =>
      intro b _ _ t ht
      rw [hnone] at ht
      exact False.elim (List.not_mem_nil ht)
    | popBack i =>
      intro t ht
      have hmem : i∈s.running := (ho.active i).mpr (by rw [ht]; rfl)
      rw [hr] at hmem
      exact False.elim (List.not_mem_nil hmem)
    | _ => trivial
  · have hstep : DispatchStep i a := h.2 i (by rw [hr]; rfl)
    cases a with
    | handlerReturns j => trivial
    | popBack j =>
      intro u hu m hm
      obtain rfl : j=i := hstep
      rw [hf] at hu
      obtain rfl : t=u := Option.some.inj hu
      have hsorted := ho.layered.sorted
      rw [hq] at hm hsorted
      rcases List.mem_cons.mp hm with rfl|hm
      · exact messageComp_self t
      · exact (List.pairwise_cons.mp hsorted).1 m hm
    | _ => exact False.elim hstep

/-- Quiet steps start at most one dispatch and leave its entry at the back. -/
theorem alone_step {subscribers : ℕ} {s s' : State ι α} {a : Act ι α} (ha : Alone s)
    (hok : Quiet s a) (h : next subscribers s a=some s') : Alone s' := by
  have hidle : (∀ i,¬DispatchStep i a) → s.running=[] := by
    intro hno
    cases hr : s.running with
    | nil => rfl
    | cons i rest => exact False.elim (hno i (hok.2 i (by rw [hr]; rfl)))
  cases next_effect h with
  | operatorCall priority delayPoint data std => exact .inl (hidle fun _ h => h)
  | stays => exact ha
  | moves _ j f hold hnew =>
    rcases ha with hr|⟨i,t,k,rest,hr,hf,hq⟩
    · exact .inl hr
    · have hne : i≠j := by
        rintro rfl
        rw [hf] at hold
        contradiction
      exact .inr ⟨i,t,k,rest,hr,(Function.update_of_ne hne _ _).trans hf,hq⟩
  | semWait i chan hf hw => exact .inl (hidle fun _ h => h)
  | handsOver i reading t chan hf hm hdue =>
    obtain ⟨rest,-,hq',-⟩ := moveBack_eq_some hm
    have hr := hidle fun _ h => h
    exact .inr ⟨i,t,0,rest,congrArg (i::·) hr,Function.update_self _ _ _,hq'⟩
  | handlerReturns i t k others hf hr hk =>
    rcases ha with hr'|⟨j,u,l,rest,hr',hf',hq⟩
    · rw [hr'] at hr
      contradiction
    · rw [hr,List.cons.injEq] at hr'
      obtain ⟨rfl,rfl⟩ := hr'
      rw [hf,Frame.dispatching.injEq] at hf'
      obtain ⟨rfl,rfl⟩ := hf'
      exact .inr ⟨i,t,k+1,rest,hr,Function.update_self _ _ _,hq⟩
  | popBack i t b others chan hf hr hp =>
    rcases ha with hr'|⟨j,u,l,rest,hr',-,-⟩
    · rw [hr'] at hr
      contradiction
    · rw [hr,List.cons.injEq] at hr'
      exact .inl hr'.2
  | handlerThrows i t k rest hf hr hk => exact False.elim hok.1

/-- In quiet runs the orderly invariant holds, with at most one dispatch. -/
theorem orderly_of_quiet {subscribers : ℕ} {acts : List (Act ι α)} {s : State ι α}
    (h : Reaches (next subscribers) Quiet .start acts s) : Orderly s ∧ Alone s :=
  h.invariant (I := fun s => Orderly s ∧ Alone s) ⟨orderly_start,.inl rfl⟩ fun hi hok hn =>
    ⟨orderly_step hi.1 (hok.calm hi.1 hi.2) hn,alone_step hi.2 hok hn⟩

/-- Exactly once and never an empty head. In every state of every interleaving
the vector holds one entry per count of the semaphore and per caller inside a
receive; so a caller inside a receive always finds a back entry, and outside
a running dispatch the sent messages are the disjoint union of the dispatched
and the pending ones. -/
theorem delay_exactly_once [Fintype ι] (subscribers : ℕ) {acts : List (Act ι α)}
    {s : State ι α} (h : Reaches (next subscribers) Quiet .start acts s) :
    s.chan.queue.length=s.chan.size+s.inside ∧
      (∀ i,(s.frame i).inside=true → s.chan.queue≠[]) ∧
      (s.running=[] → (s.sent : Multiset (Message α))=
        (s.handed.map Handed.message : Multiset (Message α))+
          (s.chan.queue : Multiset (Message α))) := by
  have ho := (orderly_of_quiet h).1
  have hb : Matched s := h.invariant matched_start fun hb _ hn => matched_step hb hn
  have hcount : s.chan.queue.length=s.chan.size+s.inside := by
    rw [Matched,ho.thrown,Nat.add_zero] at hb
    exact hb
  refine ⟨hcount,fun i hi hnil => ?_,fun hrun => ?_⟩
  · have hpos : 0 < s.inside := by
      rw [State.inside,Finset.card_pos]
      exact ⟨i,Finset.mem_filter.mpr ⟨Finset.mem_univ i,hi⟩⟩
    rw [hnil,List.length_nil] at hcount
    omega
  · have hlayered := ho.layered
    rw [State.dispatching,hrun] at hlayered
    have hfilter : (s.chan.queue.filter fun m => m.Intact)=s.chan.queue :=
      List.filter_eq_self.mpr fun m hm => decide_eq_true (hlayered.intact m hm)
    have hsplit := ho.split
    rw [hfilter] at hsplit
    rw [Multiset.coe_add]
    exact Multiset.coe_eq_coe.mpr hsplit

/-- A coroutine parks before its message is due, a more urgent message is sent
meanwhile and overtakes, and a second caller receives the first message. -/
def overtakingRun : List (Act (Fin 2) ℕ) :=
  [.operatorCall 0 5 10 (insertionSort ℕ),.get 0,.semWait 0,.readClock 0 3,
    .operatorCall 1 5 20 (insertionSort ℕ),.readClock 0 6,.handlerReturns 0,.popBack 0,
    .update 1,.semWait 1,.readClock 1 6,.handlerReturns 1,.popBack 1]

/-- The overtaking run dispatches both messages and leaves nothing behind. -/
theorem delay_exactly_once_overtaking :
    ∃ s : State (Fin 2) ℕ,Reaches (next 1) Quiet .start overtakingRun s ∧
      s.handed.map Handed.message=[⟨0,5,some 10⟩,⟨1,5,some 20⟩] ∧
      s.chan.queue.length=s.chan.size+s.inside ∧
      (s.sent : Multiset (Message ℕ))=
        (s.handed.map Handed.message : Multiset (Message ℕ))+
          (s.chan.queue : Multiset (Message ℕ)) := by
  obtain ⟨s,hs,hseen⟩ := reaches_of_replay (next 1) Quiet .start overtakingRun
    (fun s => (s.handed.map Handed.message,s.running))
    ([⟨0,5,some 10⟩,⟨1,5,some 20⟩],[]) (by decide)
  have h := delay_exactly_once 1 hs
  exact ⟨s,hs,congrArg Prod.fst hseen,h.1,h.2.2 (congrArg Prod.snd hseen)⟩

/-- Dispatch order and no early delivery. Every message was due at the reading
which ended its wait loop, and no message pending at that moment is more
urgent. A message sent while a caller waits, more urgent than all pending ones,
is the one that caller dispatches once it is due. The comparator is a strict
weak order whose equivalence is agreement of timestamp and priority. -/
theorem delay_dispatch_order (subscribers : ℕ) {acts : List (Act ι α)} {s : State ι α}
    (h : Reaches (next subscribers) Quiet .start acts s) :
    (∀ e∈s.handed,e.message.timestamp ≤ e.reading ∧
      (∀ m∈e.pending,e.message.timestamp ≤ m.timestamp) ∧
      ∀ m∈e.pending,m.timestamp=e.message.timestamp → m.priority ≤ e.message.priority) ∧
    (∀ i priority delayPoint data std reading,s.frame i=.waiting →
      (∀ m∈s.chan.queue,messageComp m ⟨priority,delayPoint,some data⟩=true) →
      delayPoint ≤ reading →
      ∃ s' pending,(next subscribers s (.operatorCall priority delayPoint data std)).bind
          (fun t => next subscribers t (.readClock i reading))=some s' ∧
        pending.Perm s.chan.queue ∧
        s'.handed=⟨⟨priority,delayPoint,some data⟩,reading,pending⟩::s.handed) ∧
    IsStrictWeakOrder (Message α) (fun one other => messageComp one other=true) ∧
    ∀ one other : Message α,
      ¬messageComp one other=true ∧ ¬messageComp other one=true ↔
        one.timestamp=other.timestamp ∧ one.priority=other.priority := by
  have ho := (orderly_of_quiet h).1
  refine ⟨fun e he => ?_,?_,messageComp_strictWeak,messageComp_equivalence⟩
  · obtain ⟨-,hdue,hmin⟩ := ho.handed e he
    refine ⟨hdue,fun m hm => ?_,fun m hm heq => ?_⟩
    · exact ((messageComp_false_iff _ _).mp (hmin m hm)).1
    · exact ((messageComp_false_iff _ _).mp (hmin m hm)).2 heq.symm
  · intro i priority delayPoint data std reading hf hnew hdue
    obtain ⟨rest,hq,hp⟩ := operatorCall_overtakes std hnew
    exact ⟨_,rest,next_readClock_due subscribers hf hq hdue,hp,rfl⟩

/-- In the overtaking run the parked coroutine dispatches the later, more
urgent message. -/
theorem delay_dispatch_order_overtaking :
    ∃ s s' : State (Fin 2) ℕ,Reaches (next 1) Quiet .start (overtakingRun.take 4) s ∧
      (next 1 s (.operatorCall 1 5 20 (insertionSort ℕ))).bind
        (fun t => next 1 t (.readClock 0 6))=some s' ∧
      s'.handed=[⟨⟨1,5,some 20⟩,6,[⟨0,5,some 10⟩]⟩] := by
  obtain ⟨s,hs,hseen⟩ := reaches_of_replay (next 1) Quiet .start (overtakingRun.take 4)
    (fun s => (s.frame 0,s.chan.queue,s.handed.length))
    (.waiting,[⟨0,5,some 10⟩],0) (by decide)
  simp only [Prod.mk.injEq,List.length_eq_zero_iff] at hseen
  obtain ⟨hf,hq,hh⟩ := hseen
  obtain ⟨s',pending,hn,hp,hhanded⟩ := (delay_dispatch_order 1 hs).2.1 0 1 5 20
    (insertionSort ℕ) 6 hf (by rw [hq]; decide) (by decide)
  rw [hq,List.perm_singleton] at hp
  rw [hp,hh] at hhanded
  exact ⟨s,s',hs,hn,hhanded⟩

/-- What a caller relies on: every pop destroys the entry of the message it
dispatched, no emptied entry is dispatched, and every sent message was handed
over or is still pending with its arguments. -/
def ExactRemoval (s : State ι α) : Prop :=
  (∀ p∈s.removed,p.2=p.1.movedFrom) ∧ (∀ e∈s.handed,e.message.Intact) ∧
    (s.sent : Multiset (Message α))=(s.handed.map Handed.message : Multiset (Message α))+
      (s.chan.queue.filter fun m => m.Intact : Multiset (Message α))

omit [DecidableEq ι] in
/-- The orderly invariant contains everything a caller relies on. -/
theorem Orderly.exactRemoval {s : State ι α} (h : Orderly s) : ExactRemoval s := by
  refine ⟨h.removed,fun e he => (h.handed e he).1,?_⟩
  rw [Multiset.coe_add]
  exact Multiset.coe_eq_coe.mpr h.split

/-- A receive which hands over a back entry not more urgent than a dispatched
message hands over that message's emptied entry. -/
theorem disturbed_readClock {subscribers : ℕ} {s s' : State ι α} {i : ι} {reading : ℤ}
    (hi : Orderly s) (h : next subscribers s (.readClock i reading)=some s')
    (hbad : ¬Undisturbing s (.readClock i reading)) : ¬ExactRemoval s' := by
  unfold Undisturbing at hbad
  push Not at hbad
  obtain ⟨b,hb,hdue,t,ht,hlt⟩ := hbad
  obtain ⟨rest,hq⟩ := List.head?_eq_some_iff.mp hb
  have hlead := hi.layered.leads t ht
  rw [hq] at hlead
  have heq : b=t.movedFrom := hlead.back_eq (Bool.eq_false_iff.mpr hlt)
  rw [next_readClock_due subscribers (readClock_waiting h) hq hdue,Option.some.injEq] at h
  intro he
  have hintact : b.Intact := he.2.1 ⟨b,reading,rest⟩ (by rw [←h]; exact List.mem_cons_self)
  rw [heq] at hintact
  exact movedFrom_not_intact t hintact

/-- A pop under a more urgent entry destroys a more urgent entry. -/
theorem disturbed_popBack {subscribers : ℕ} {s s' : State ι α} {i : ι} (hi : Orderly s)
    (h : next subscribers s (.popBack i)=some s') (hbad : ¬Undisturbing s (.popBack i)) :
    ¬ExactRemoval s' := by
  unfold Undisturbing at hbad
  push Not at hbad
  obtain ⟨u,hu,m,hm,hlt⟩ := hbad
  obtain ⟨t,b,rest,hf,-,hq,hremoved⟩ := next_popBack h
  rw [hf] at hu
  obtain rfl : t=u := Option.some.inj hu
  intro he
  have heq : b=t.movedFrom := he.1 (t,b) (by rw [hremoved]; exact List.mem_cons_self)
  have hsorted := hi.layered.sorted
  rw [hq] at hm hsorted
  rw [heq] at hm hsorted
  rcases List.mem_cons.mp hm with rfl|hm
  · exact hlt (messageComp_self t)
  · exact hlt ((List.pairwise_cons.mp hsorted).1 m hm)

/-- The step is a send. -/
def Act.isSend : Act ι α → Bool
  | .operatorCall .. => true
  | _ => false

/-- In every run whose handlers return and do not disturb the dispatches they
are called from, removal is exact in every state reached. There the condition
on receives and pops is needed as well: a step which breaks it breaks exact
removal at once. -/
theorem reentrant_removal_exact (subscribers : ℕ) {acts : List (Act ι α)} {s : State ι α}
    (h : Reaches (next subscribers) Calm .start acts s) :
    ExactRemoval s ∧ ∀ a s',HandlersReturn s a → Act.isSend a=false →
      next subscribers s a=some s' → (ExactRemoval s' ↔ Undisturbing s a) := by
  have ho := orderly_of_calm h
  refine ⟨ho.exactRemoval,fun a s' hret hsend hn => ⟨fun he => ?_,fun hok => ?_⟩⟩
  · by_contra hbad
    cases a with
    | operatorCall priority delayPoint data std => contradiction
    | readClock i reading => exact disturbed_readClock ho hn hbad he
    | popBack i => exact disturbed_popBack ho hn hbad he
    | _ => exact hbad trivial
  · exact (orderly_step ho ⟨hret,hok⟩ hn).exactRemoval

/-- The handler of message 10 sends a less urgent and a more urgent message and
receives the latter itself; the former is received later. -/
def nestedRun : List (Act (Fin 2) ℕ) :=
  [.operatorCall 0 5 10 (insertionSort ℕ),.get 0,.semWait 0,.readClock 0 5,
    .operatorCall 7 6 30 (insertionSort ℕ),.operatorCall 1 5 20 (insertionSort ℕ),
    .update 1,.semWait 1,.readClock 1 5,.handlerReturns 1,.popBack 1,.handlerReturns 0,.popBack 0,
    .get 0,.semWait 0,.readClock 0 6,.handlerReturns 0,.popBack 0]

/-- In the nested run all three messages are handed over, each removed by its
own call. -/
theorem reentrant_removal_exact_nested :
    ∃ s,Reaches (next 1) Calm .start nestedRun s ∧
      s.handed.map Handed.message=[⟨7,6,some 30⟩,⟨1,5,some 20⟩,⟨0,5,some 10⟩] ∧
      s.chan.queue=[] ∧ ExactRemoval s := by
  obtain ⟨s,hs,hseen⟩ := reaches_of_replay (next 1) Calm .start nestedRun
    (fun s => (s.handed.map Handed.message,s.chan.queue))
    ([⟨7,6,some 30⟩,⟨1,5,some 20⟩,⟨0,5,some 10⟩],[]) (by decide)
  exact ⟨s,hs,congrArg Prod.fst hseen,congrArg Prod.snd hseen,(reentrant_removal_exact 1 hs).1⟩

/-- Message 10 is dispatched at its time 5, its handler answers with message 20
of higher priority at the same time, and one more receive follows. -/
def answeringRun : List (Act (Fin 2) ℕ) :=
  [.operatorCall 0 5 10 (insertionSort ℕ),.get 0,.semWait 0,.readClock 0 5,
    .operatorCall 1 5 20 (insertionSort ℕ),.handlerReturns 0,.popBack 0,
    .get 0,.semWait 0,.readClock 0 6,.handlerReturns 0,.popBack 0]

/-- A handler answers at once with a more urgent message due at the same time:
the pop destroys the answer, which nobody receives, and the next receive
dispatches the emptied entry of the first message. -/
theorem reentrant_send_lost :
    ∃ s,Reaches (next 1) HandlersReturn .start answeringRun s ∧
      s.handed.map Handed.message=[⟨0,5,none⟩,⟨0,5,some 10⟩] ∧
      s.chan.queue=[] ∧ ¬ExactRemoval s := by
  obtain ⟨s,hs,hseen⟩ := reaches_of_replay (next 1) HandlersReturn .start answeringRun
    (fun s => (s.handed.map Handed.message,s.chan.queue,s.removed))
    ([⟨0,5,none⟩,⟨0,5,some 10⟩],[],[(⟨0,5,none⟩,⟨0,5,none⟩),(⟨0,5,some 10⟩,⟨1,5,some 20⟩)])
    (by decide)
  simp only [Prod.mk.injEq] at hseen
  obtain ⟨hh,hq,hr⟩ := hseen
  refine ⟨s,hs,hh,hq,fun he => ?_⟩
  have hpair := he.1 (⟨0,5,some 10⟩,⟨1,5,some 20⟩) (by rw [hr]; decide)
  revert hpair
  decide

end FastEventSystem.DelayDelivery
