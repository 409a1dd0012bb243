import FastEventSystem.DelayTiming
import FastEventSystem.FastChannel

/-!
# Equal messages of a delayed channel, and the fast channel

Messages of equal timestamp and priority are equal to the sort, which may
leave them in any order; a stable one leaves the newest at the back, where it
is taken first. First-in first-out among equals therefore needs that a message
is not sent while an equal one is pending. Under that discipline every allowed
sort keeps the order of sending, and with one priority and one timestamp
already due the channel delivers what a fast channel delivers.
-/

namespace FastEventSystem.DelayFifo

open SortedVector MessageOrder CountingSemaphore DelayChannel DispatchLayers DelayCalls
  DelayDelivery GuardedRuns

variable {ι α : Type*}

/-- The message has this timestamp and this priority. -/
def equalTo (timestamp priority : ℤ) (m : Message α) : Bool :=
  decide (m.timestamp=timestamp ∧ m.priority=priority)

/-- A message is not sent while an equal one is pending. -/
def Distinguished (s : State ι α) : Act ι α → Prop
  | .operatorCall priority delayPoint data _ =>
    ∀ m∈s.chan.queue,¬m.Tied ⟨priority,delayPoint,some data⟩
  | _ => True

instance (s : State ι α) : (a : Act ι α) → Decidable (Distinguished s a)
  | .operatorCall .. => inferInstanceAs (Decidable (∀ m∈s.chan.queue,_))
  | .get _ | .update _ | .wait .. | .poll .. | .semWait _ | .readClock .. | .handlerReturns _
  | .popBack _ | .handlerThrows _ => inferInstanceAs (Decidable True)

/-- Handlers do not call back, and equal messages are never pending together. -/
def Untied (s : State ι α) (a : Act ι α) : Prop := Quiet s a ∧ Distinguished s a

instance [DecidableEq ι] (s : State ι α) (a : Act ι α) : Decidable (Untied s a) :=
  inferInstanceAs (Decidable (_ ∧ _))

/-- The messages of the vector which are not being dispatched. -/
def pending (s : State ι α) : List (Message α) := s.chan.queue.filter fun m => m.Intact

/-- The messages handed over so far, newest first. -/
def delivered (s : State ι α) : List (Message α) := s.handed.map Handed.message

/-- Equal messages are sent, pending and delivered in one order, and at most
one of them is pending. -/
def InOrder (s : State ι α) : Prop :=
  ∀ timestamp priority,
    s.sent.filter (equalTo timestamp priority)=
      (pending s).filter (equalTo timestamp priority)++
        (delivered s).filter (equalTo timestamp priority) ∧
    ((pending s).filter (equalTo timestamp priority)).length ≤ 1

/-- Nothing happened yet. -/
theorem inOrder_start : InOrder (State.start : State ι α) := fun _ _ => ⟨rfl,Nat.zero_le _⟩

/-- A rearrangement of at most one entry is the same list. -/
theorem eq_of_perm_short {xs ys : List α} (hp : xs.Perm ys) (hlen : ys.length ≤ 1) : xs=ys := by
  match ys with
  | [] => exact hp.eq_nil
  | [y] => exact List.perm_singleton.mp hp
  | _::_::_ => exact absurd hlen (by simp only [List.length_cons]; omega)

/-- Sending keeps the order of equal messages when none equal is pending,
whatever the sort does. -/
theorem inOrder_operatorCall {s : State ι α} {priority delayPoint : ℤ} {data : α}
    {std : StdSort α} (hi : InOrder s)
    (hok : Untied s (.operatorCall priority delayPoint data std)) :
    InOrder {s with
      chan := s.chan.operatorCall priority delayPoint data std
      sent := ⟨priority,delayPoint,some data⟩::s.sent} := by
  intro timestamp level
  obtain ⟨hsplit,hshort⟩ := hi timestamp level
  have hperm := ((operatorCall_perm s.chan priority delayPoint data std).filter
    fun m => m.Intact).filter (equalTo timestamp level)
  rw [List.filter_cons_of_pos (by rfl)] at hperm
  change (⟨priority,delayPoint,some data⟩::s.sent).filter (equalTo timestamp level)=
      ((s.chan.operatorCall priority delayPoint data std).queue.filter fun m => m.Intact).filter
        (equalTo timestamp level)++(delivered s).filter (equalTo timestamp level) ∧
    (((s.chan.operatorCall priority delayPoint data std).queue.filter fun m => m.Intact).filter
      (equalTo timestamp level)).length ≤ 1
  cases hequal : equalTo timestamp level (⟨priority,delayPoint,some data⟩ : Message α) with
  | true =>
    -- no pending message is equal to the new one
    have hnone : (pending s).filter (equalTo timestamp level)=[] := by
      rw [List.filter_eq_nil_iff]
      intro m hm heq
      have htied := hok.2 m (List.mem_of_mem_filter hm)
      have hnew := of_decide_eq_true hequal
      have hold := of_decide_eq_true heq
      exact htied ⟨hold.1.trans hnew.1.symm,hold.2.trans hnew.2.symm⟩
    rw [List.filter_cons_of_pos hequal] at hperm ⊢
    change List.Perm _ (_::(pending s).filter (equalTo timestamp level)) at hperm
    rw [hnone] at hperm hsplit
    rw [List.perm_singleton.mp hperm,hsplit]
    exact ⟨rfl,Nat.le_refl _⟩
  | false =>
    have hneg : ¬equalTo timestamp level (⟨priority,delayPoint,some data⟩ : Message α)=true :=
      Bool.eq_false_iff.mp hequal
    rw [List.filter_cons_of_neg hneg] at hperm ⊢
    rw [eq_of_perm_short hperm hshort]
    exact ⟨hsplit,hshort⟩

variable [DecidableEq ι]

/-- A hand-over takes the only pending message equal to it. -/
theorem inOrder_handsOver {s : State ι α} {i : ι} {reading : ℤ} {t : Message α}
    {chan : AsyncDelay α} (hi : InOrder s) (hm : s.chan.moveBack=some (t,chan))
    (hintact : t.Intact) :
    InOrder {s.goto i (.dispatching t 0) with
      chan := chan
      running := i::s.running
      handed := ⟨t,reading,s.chan.queue.tail⟩::s.handed} := by
  obtain ⟨rest,hq,hq',-⟩ := moveBack_eq_some hm
  have hbefore : pending s=t::rest.filter fun m => m.Intact := by
    rw [pending,hq,List.filter_cons_of_pos (by simpa using hintact)]
  have hafter : (chan.queue.filter fun m => m.Intact)=rest.filter fun m => m.Intact := by
    rw [hq',List.filter_cons_of_neg (by simpa using movedFrom_not_intact t)]
  intro timestamp level
  obtain ⟨hsplit,hshort⟩ := hi timestamp level
  change s.sent.filter (equalTo timestamp level)=
      (chan.queue.filter fun m => m.Intact).filter (equalTo timestamp level)++
        (t::delivered s).filter (equalTo timestamp level) ∧
    ((chan.queue.filter fun m => m.Intact).filter (equalTo timestamp level)).length ≤ 1
  rw [hbefore] at hsplit hshort
  rw [hafter]
  cases hequal : equalTo timestamp level t with
  | true =>
    rw [List.filter_cons_of_pos hequal] at hsplit hshort ⊢
    have hnone : (rest.filter fun m => m.Intact).filter (equalTo timestamp level)=[] := by
      rw [List.length_cons] at hshort
      exact List.length_eq_zero_iff.mp (by omega)
    rw [hnone] at hsplit ⊢
    exact ⟨hsplit,Nat.zero_le _⟩
  | false =>
    rw [List.filter_cons_of_neg (Bool.eq_false_iff.mp hequal)] at hsplit hshort ⊢
    exact ⟨hsplit,hshort⟩

/-- Every step under the discipline keeps the order. -/
theorem inOrder_step {subscribers : ℕ} {s s' : State ι α} {a : Act ι α} (hi : InOrder s)
    (ho : Orderly s') (hok : Untied s a) (h : next subscribers s a=some s') : InOrder s' := by
  cases next_effect h with
  | operatorCall priority delayPoint data std => exact inOrder_operatorCall hi hok
  | stays | moves | handlerReturns | handlerThrows => exact hi
  | semWait i chan hf hw =>
    intro timestamp priority
    have hq := (semWait_eq_some hw).1
    have hsame := hi timestamp priority
    rw [pending,←hq] at hsame
    exact hsame
  | handsOver i reading t chan hf hm hdue =>
    have htimely := ho.handed ⟨t,reading,s.chan.queue.tail⟩ List.mem_cons_self
    exact inOrder_handsOver hi hm htimely.1
  | popBack i t b rest chan hf hr hp =>
    have hb : b=t.movedFrom := ho.removed (t,b) List.mem_cons_self
    intro timestamp priority
    have hq := (popBack_eq_some hp).1
    have hsame := hi timestamp priority
    rw [pending,hq,hb,List.filter_cons_of_neg (by simpa using movedFrom_not_intact t)] at hsame
    exact hsame

/-- Equal messages keep the order of sending in every run under the discipline. -/
theorem inOrder_of_reaches {subscribers : ℕ} {acts : List (Act ι α)} {s : State ι α}
    (h : Reaches (next subscribers) Untied .start acts s) : InOrder s := by
  induction h with
  | start => exact inOrder_start
  | step a hrun hok hn ih =>
    have hquiet := (hrun.step a hok hn).mono fun _ _ hok => hok.1
    exact inOrder_step ih (orderly_of_quiet hquiet).1 hok hn

section OneThread

open FastChannel

/-- One operation of the thread: a send, with the sort the library performs in
it, or a receive which reads the clock once. -/
inductive Op (α : Type*) where
  /-- Call `operator()`. -/
  | send (data : α) (std : StdSort α)
  /-- Call `get()`. -/
  | get (reading : ℤ)

/-- What an `async_fast` delivers, its queue first-in first-out; nothing once
a receive blocks. -/
def fastDelivers : AsyncFast α → ℕ → List (Op α) → Option (List α)
  | _,_,[] => some []
  | c,n,.send data _::ops => fastDelivers (c.enqueue ⟨n,data⟩).notify (n+1) ops
  | c,n,.get _::ops =>
    c.semWait.bind fun passed => (passed.waitDequeue 0).bind fun (t,left) =>
      (fastDelivers left n ops).map (t.data::·)

/-- What an `async_delay` delivers when all sends use one priority and one
point in time. -/
def delayDelivers (priority delayPoint : ℤ) : AsyncDelay α → List (Op α) → Option (List α)
  | _,[] => some []
  | c,.send data std::ops =>
    delayDelivers priority delayPoint (c.operatorCall priority delayPoint data std) ops
  | c,.get reading::ops =>
    match DelayTiming.get c [reading] with
    | .returned (some (⟨_,_,some data⟩,_)) _ chan =>
      (delayDelivers priority delayPoint chan ops).map (data::·)
    | _ => none

/-- Every send finds the channel empty. -/
def Spaced : Bool → List (Op α) → Prop
  | _,[] => True
  | occupied,.send _ _::ops => occupied=false ∧ Spaced true ops
  | _,.get _::ops => Spaced false ops

/-- Whether the operations leave a message pending. -/
def occupied : Bool → List (Op α) → Bool
  | last,[] => last
  | _,.send _ _::ops => occupied true ops
  | _,.get _::ops => occupied false ops

/-- A send after operations which leave nothing pending is spaced as well. -/
theorem spaced_append {last : Bool} {ops : List (Op α)} {data : α} {std : StdSort α}
    (hspaced : Spaced last ops) (hfree : occupied last ops=false) :
    Spaced last (ops++[.send data std]) := by
  induction ops generalizing last with
  | nil => exact ⟨hfree,trivial⟩
  | cons op ops ih =>
    cases op with
    | send first std => exact ⟨hspaced.1,ih hspaced.2 hfree⟩
    | get reading =>
      have hrest : Spaced false ops := hspaced
      exact ih hrest hfree

/-- Receives read a clock at which the messages are due. -/
def Due (delayPoint : ℤ) (ops : List (Op α)) : Prop :=
  ∀ reading,.get reading∈ops → delayPoint ≤ reading

/-- A fast channel with at most one tuple. -/
def fastOf : Option (Tuple α) → AsyncFast α
  | none => ⟨[],⟨0⟩⟩
  | some t => ⟨[t],⟨1⟩⟩

/-- The delayed channel with the same contents. -/
def delayOf (priority delayPoint : ℤ) : Option (Tuple α) → AsyncDelay α
  | none => ⟨[],⟨0⟩⟩
  | some t => ⟨[⟨priority,delayPoint,some t.data⟩],⟨1⟩⟩

/-- A receive on the fast channel takes the tuple, or blocks. -/
theorem fastDelivers_get (held : Option (Tuple α)) (n : ℕ) (reading : ℤ) (ops : List (Op α)) :
    fastDelivers (fastOf held) n (.get reading::ops)=
      held.bind fun t => (fastDelivers (fastOf none) n ops).map (t.data::·) := by
  cases held with
  | none => rfl
  | some t => rfl

/-- A receive on the delayed channel takes the same tuple, or blocks. -/
theorem delayDelivers_get {priority delayPoint : ℤ} (held : Option (Tuple α)) {reading : ℤ}
    (hdue : delayPoint ≤ reading) (ops : List (Op α)) :
    delayDelivers priority delayPoint (delayOf priority delayPoint held) (.get reading::ops)=
      held.bind fun t =>
        (delayDelivers priority delayPoint (delayOf priority delayPoint none) ops).map
          (t.data::·) := by
  cases held with
  | none => rfl
  | some t =>
    have hnot : ¬reading < delayPoint := by omega
    simp only [delayDelivers,delayOf,DelayTiming.get,AsyncDelay.semWait,Semaphore.wait,
      gt_iff_lt,Nat.zero_lt_one,if_true,Option.map_some,DelayTiming.receive,AsyncDelay.moveBack,
      if_neg hnot,AsyncDelay.popBack,Option.bind_some]

/-- Under the discipline the two channels deliver the same, whatever the sorts. -/
theorem delayDelivers_eq {priority delayPoint : ℤ} {ops : List (Op α)}
    (hdue : Due delayPoint ops) (held : Option (Tuple α)) (n : ℕ)
    (hspaced : Spaced held.isSome ops) :
    delayDelivers priority delayPoint (delayOf priority delayPoint held) ops=
      fastDelivers (fastOf held) n ops := by
  induction ops generalizing held n with
  | nil => rfl
  | cons op ops ih =>
    have hrest : Due delayPoint ops := fun r hr => hdue r (List.mem_cons_of_mem _ hr)
    cases op with
    | send data std =>
      obtain ⟨hempty,hspaced⟩ := hspaced
      rw [Option.isSome_eq_false_iff,Option.isNone_iff_eq_none] at hempty
      subst hempty
      exact ih hrest (some ⟨n,data⟩) (n+1) hspaced
    | get reading =>
      rw [delayDelivers_get held (hdue reading List.mem_cons_self),fastDelivers_get]
      cases held with
      | none => rfl
      | some t => rw [Option.bind_some,Option.bind_some,ih hrest none n hspaced]

/-- A stable sort leaves the newer of two equal messages at the back. -/
theorem insertionSort_tied (priority delayPoint : ℤ) (new old : α) :
    (insertionSort α).sort [⟨priority,delayPoint,some new⟩,⟨priority,delayPoint,some old⟩]=
      [⟨priority,delayPoint,some new⟩,⟨priority,delayPoint,some old⟩] := by
  have hcomp : messageComp (⟨priority,delayPoint,some new⟩ : Message α)
      ⟨priority,delayPoint,some old⟩=false := by
    rw [messageComp_false_iff]
    exact ⟨le_refl _,fun _ => le_refl _⟩
  simp only [insertionSort,insertion,List.insertionSort_cons,List.insertionSort_nil,
    List.orderedInsert_nil,List.orderedInsert_cons,hcomp,if_true]

/-- One send next to a pending equal message, the library's sort being stable,
and one receive: the delayed channel delivers the new message and the fast
channel the old one. -/
theorem tied_send_overtakes {priority delayPoint : ℤ} {ops : List (Op α)} {reading : ℤ}
    {data : α} (hdue : Due delayPoint (ops++[.send data (insertionSort α),.get reading]))
    (held : Option (Tuple α)) (n : ℕ) (hspaced : Spaced held.isSome ops)
    (hoccupied : occupied held.isSome ops=true) {out : List α}
    (hout : fastDelivers (fastOf held) n ops=some out) :
    ∃ old,fastDelivers (fastOf held) n (ops++[.send data (insertionSort α),.get reading])=
        some (out++[old]) ∧
      delayDelivers priority delayPoint (delayOf priority delayPoint held)
        (ops++[.send data (insertionSort α),.get reading])=some (out++[data]) := by
  induction ops generalizing held n out with
  | nil =>
    obtain ⟨t,rfl⟩ := Option.isSome_iff_exists.mp hoccupied
    obtain rfl : []=out := Option.some.inj hout
    have hnot : ¬reading < delayPoint := by
      have hle := hdue reading (List.mem_cons_of_mem _ List.mem_cons_self)
      omega
    have hsent : (delayOf priority delayPoint (some t)).operatorCall priority delayPoint data
        (insertionSort α)=
          ⟨[⟨priority,delayPoint,some data⟩,⟨priority,delayPoint,some t.data⟩],⟨2⟩⟩ := by
      have hsorted := insertionSort_tied priority delayPoint data t.data
      simp only [AsyncDelay.operatorCall,delayOf,List.length_cons,List.length_nil,hsorted]
      rfl
    refine ⟨t.data,rfl,?_⟩
    rw [List.nil_append,delayDelivers,hsent]
    simp only [delayDelivers,DelayTiming.get,AsyncDelay.semWait,Semaphore.wait,gt_iff_lt,
      Nat.zero_lt_succ,if_true,Option.map_some,DelayTiming.receive,AsyncDelay.moveBack,
      if_neg hnot,AsyncDelay.popBack,List.nil_append]
  | cons op ops ih =>
    have hrest : Due delayPoint (ops++[.send data (insertionSort α),.get reading]) :=
      fun r hr => hdue r (List.mem_cons_of_mem _ hr)
    cases op with
    | send first std =>
      obtain ⟨hempty,hspaced⟩ := hspaced
      rw [Option.isSome_eq_false_iff,Option.isNone_iff_eq_none] at hempty
      subst hempty
      exact ih hrest (some ⟨n,first⟩) (n+1) hspaced hoccupied hout
    | get r =>
      rw [List.cons_append,delayDelivers_get held (hdue r List.mem_cons_self),fastDelivers_get]
      rw [fastDelivers_get] at hout
      obtain ⟨t,rfl,hout⟩ := Option.bind_eq_some_iff.mp hout
      obtain ⟨later,hlater,rfl⟩ := Option.map_eq_some_iff.mp hout
      obtain ⟨old,hfast,hdelay⟩ := ih hrest none n hspaced hoccupied hlater
      refine ⟨old,?_,?_⟩
      · rw [Option.bind_some,hfast]
        rfl
      · rw [Option.bind_some,hdelay]
        rfl

/-- First-in first-out among equals. In every run in which no message is sent
while an equal one is pending, the delivered messages of each timestamp and
priority are, oldest first, the first sent ones, under every allowed sort. If
all sends of one thread use one priority and one due point in time and each
finds the channel empty, the payloads delivered are those an `async_fast`
delivers. After any such operations one send next to a pending message and one
receive are enough for a stable sort to deliver the newer message instead. -/
theorem equal_messages_in_order_of_untied {κ : Type*} [DecidableEq κ] :
    (∀ (subscribers : ℕ) {acts : List (Act κ α)} {s : State κ α},
      Reaches (next subscribers) Untied .start acts s → ∀ timestamp priority,
        (delivered s).filter (equalTo timestamp priority) <:+
          s.sent.filter (equalTo timestamp priority)) ∧
    (∀ (priority delayPoint : ℤ) (ops : List (Op α)),Due delayPoint ops → Spaced false ops →
      delayDelivers priority delayPoint .fresh ops=fastDelivers .fresh 0 ops) ∧
    ∀ (priority delayPoint : ℤ) (ops : List (Op α)) (out : List α) (data : α) (reading : ℤ),
      Due delayPoint (ops++[.send data (insertionSort α),.get reading]) → Spaced false ops →
        ¬Spaced false (ops++[.send data (insertionSort α)]) →
        fastDelivers .fresh 0 ops=some out →
          ∃ old,fastDelivers .fresh 0 (ops++[.send data (insertionSort α),.get reading])=
              some (out++[old]) ∧
            delayDelivers priority delayPoint .fresh
              (ops++[.send data (insertionSort α),.get reading])=some (out++[data]) := by
  refine ⟨?_,?_,?_⟩
  · intro subscribers acts s h timestamp priority
    rw [(inOrder_of_reaches h timestamp priority).1]
    exact List.suffix_append _ _
  · intro priority delayPoint ops hdue hspaced
    exact delayDelivers_eq hdue none 0 hspaced
  · intro priority delayPoint ops out data reading hdue hspaced hnot hout
    refine tied_send_overtakes hdue none 0 hspaced ?_ hout
    by_contra hfree
    exact hnot (spaced_append hspaced (Bool.eq_false_iff.mpr hfree))

/-- Two messages at one time and two priorities, and a third one equal to the
first after that was received. -/
def untiedRun : List (Act (Fin 1) ℕ) :=
  [.operatorCall 0 5 10 (insertionSort ℕ),.operatorCall 1 5 20 (insertionSort ℕ),
    .get 0,.semWait 0,.readClock 0 6,.handlerReturns 0,.popBack 0,
    .get 0,.semWait 0,.readClock 0 6,.handlerReturns 0,.popBack 0,
    .operatorCall 0 5 30 (insertionSort ℕ),
    .get 0,.semWait 0,.readClock 0 7,.handlerReturns 0,.popBack 0]

/-- The two equal messages of the run are delivered as sent. -/
theorem equal_messages_in_order_untied_run :
    ∃ s,Reaches (next 1) Untied .start untiedRun s ∧
      delivered s=[⟨0,5,some 30⟩,⟨0,5,some 10⟩,⟨1,5,some 20⟩] ∧
      (delivered s).filter (equalTo 5 0) <:+ s.sent.filter (equalTo 5 0) ∧
      delayDelivers 0 5 .fresh [.send 10 (insertionSort ℕ),.get 6,.send 20 (insertionSort ℕ)]=
        fastDelivers .fresh 0
          [.send 10 (insertionSort ℕ),.get 6,.send 20 (insertionSort ℕ)] := by
  obtain ⟨s,hs,hseen⟩ := reaches_of_replay (next 1) Untied .start untiedRun delivered
    [⟨0,5,some 30⟩,⟨0,5,some 10⟩,⟨1,5,some 20⟩] (by decide)
  obtain ⟨hfifo,hsame,-⟩ := @equal_messages_in_order_of_untied ℕ (Fin 1) _
  refine ⟨s,hs,hseen,hfifo 1 hs 5 0,hsame 0 5 _ (fun reading hr => ?_) ⟨rfl,rfl,trivial⟩⟩
  simp only [List.mem_cons,Op.get.injEq,List.not_mem_nil,or_false,reduceCtorEq,false_or] at hr
  omega

/-- Two equal messages, and one receive. -/
def tiedRun : List (Act (Fin 1) ℕ) :=
  [.operatorCall 0 5 10 (insertionSort ℕ),.operatorCall 0 5 20 (insertionSort ℕ),
    .get 0,.semWait 0,.readClock 0 6,.handlerReturns 0,.popBack 0]

/-- With two equal messages pending the newer one is delivered first, and an
`async_fast` delivers the older one. -/
theorem equal_messages_out_of_order :
    (∃ s,Reaches (next 1) Quiet .start tiedRun s ∧
      ¬(delivered s).filter (equalTo 5 0) <:+ s.sent.filter (equalTo 5 0)) ∧
    delayDelivers 0 5 .fresh
      [.send 10 (insertionSort ℕ),.send 20 (insertionSort ℕ),.get 6]=some [20] ∧
    fastDelivers .fresh 0
      [.send 10 (insertionSort ℕ),.send 20 (insertionSort ℕ),.get 6]=some [10] := by
  refine ⟨?_,by decide,by decide⟩
  obtain ⟨s,hs,hseen⟩ := reaches_of_replay (next 1) Quiet .start tiedRun
    (fun s => (delivered s,s.sent)) ([⟨0,5,some 20⟩],[⟨0,5,some 20⟩,⟨0,5,some 10⟩]) (by decide)
  simp only [Prod.mk.injEq] at hseen
  refine ⟨s,hs,?_⟩
  rw [hseen.1,hseen.2]
  decide

end OneThread

end FastEventSystem.DelayFifo
