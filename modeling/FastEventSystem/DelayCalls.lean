import FastEventSystem.DelayChannel
import FastEventSystem.GuardedRuns
import FastEventSystem.PartyTotals
import Mathlib.Data.Multiset.Basic
import Mathlib.Data.Fintype.Card

/-!
# Interleaved calls on one delayed channel

Every call of `get`, `update` or `wait`, with or without a yield object, is an
activation of a finite set of callers. An activation may be overtaken by any
other between two of its steps, so a suspended coroutine, a sleeping blocking
call and a call made by a handler are all covered; runs which switch only at
call boundaries and yield points are among these. Clock readings are arbitrary.
A message is dispatched to a fixed number of subscribers, each of which
returns or throws. Histories of sent, handed and removed messages are kept for
the statements only; no operation reads them.
-/

namespace FastEventSystem.DelayCalls

open MessageOrder CountingSemaphore DelayChannel PartyTotals

/-- Where an activation stands. -/
inductive Frame (α : Type*) where
  /-- No call in progress. -/
  | idle
  /-- In the timed loop of `wait`, before its next clock reading. -/
  | polling (mark : ℤ)
  /-- In `_get`, at `_sem.wait()`. -/
  | atSem
  /-- In `_get`, past `_sem.wait()`, before its next clock reading; between two
  readings the call sleeps or yields. -/
  | waiting
  /-- `_output` runs on the moved-out message; that many subscribers returned. -/
  | dispatching (t : Message α) (position : ℕ)
  deriving DecidableEq

variable {ι α : Type*}

/-- Passed `_sem.wait()` and not yet reached `_queue.pop_back()`. -/
def Frame.inside : Frame α → Bool
  | .waiting => true
  | .dispatching _ _ => true
  | _ => false

/-- The message whose subscribers run on behalf of this activation. -/
def Frame.message : Frame α → Option (Message α)
  | .dispatching t _ => some t
  | _ => none

/-- A message at the moment it is handed to `_output`. -/
structure Handed (α : Type*) where
  /-- The moved-out message. -/
  message : Message α
  /-- The clock reading which ended the wait loop. -/
  reading : ℤ
  /-- All other entries of the vector at that moment. -/
  pending : List (Message α)

/-- The channel, all activations and the histories. -/
structure State (ι α : Type*) where
  /-- The channel itself. -/
  chan : AsyncDelay α
  /-- Every activation's position. -/
  frame : ι → Frame α
  /-- Activations whose subscribers are running, innermost first. -/
  running : List ι
  /-- History of sent messages. -/
  sent : List (Message α)
  /-- History of messages handed to `_output`. -/
  handed : List (Handed α)
  /-- History of pops: the dispatched message and the destroyed entry. -/
  removed : List (Message α×Message α)
  /-- Number of dispatches left by an exception. -/
  thrown : ℕ

/-- Nothing sent and nobody calling. -/
def State.start : State ι α := ⟨.fresh,fun _ => .idle,[],[],[],[],0⟩

/-- One step of the environment or of an activation. -/
inductive Act (ι α : Type*) where
  /-- Somebody, possibly a running handler, sends. -/
  | operatorCall (priority delayPoint : ℤ) (data : α) (std : StdSort α)
  /-- Call `get()` or `get(yield)`. -/
  | get (i : ι)
  /-- Call `update()`, reading the count. -/
  | update (i : ι)
  /-- Call `wait(timeout)` or `wait(yield,timeout)` at the given reading. -/
  | wait (i : ι) (timeout reading : ℤ)
  /-- One turn of the timed loop of `wait`. -/
  | poll (i : ι) (reading : ℤ)
  /-- Pass `_sem.wait()`. -/
  | semWait (i : ι)
  /-- One test of the wait loop of `_get`; a due back entry is moved out and
  handed to `_output`. -/
  | readClock (i : ι) (reading : ℤ)
  /-- The current subscriber returns. -/
  | handlerReturns (i : ι)
  /-- All subscribers returned: pop and return the tuple. -/
  | popBack (i : ι)
  /-- The current subscriber throws, and the exception leaves the call. -/
  | handlerThrows (i : ι)

/-- The messages being dispatched, innermost first. -/
def State.dispatching (s : State ι α) : List (Message α) :=
  s.running.filterMap fun i => (s.frame i).message

/-- Number of callers past `_sem.wait()` and before `_queue.pop_back()`. -/
def State.inside [Fintype ι] (s : State ι α) : ℕ :=
  (Finset.univ.filter fun i => (s.frame i).inside=true).card

/-- The vector holds one entry for each count of the semaphore, one for each
caller inside a receive, and one for each dispatch an exception has left. -/
def Matched [Fintype ι] (s : State ι α) : Prop :=
  s.chan.queue.length=s.chan.sem.len+s.inside+s.thrown

/-- The initial state is balanced. -/
theorem matched_start [Fintype ι] : Matched (State.start : State ι α) := by
  have hin : (State.start : State ι α).inside=0 := by
    rw [State.inside,Finset.card_eq_zero,Finset.filter_eq_empty_iff]
    intro i _
    exact Bool.false_ne_true
  rw [Matched,hin]
  rfl

variable [DecidableEq ι]

/-- Move one activation. -/
def State.goto (s : State ι α) (i : ι) (f : Frame α) : State ι α :=
  {s with frame := Function.update s.frame i f}

/-- Perform one step with `subscribers` connected handlers. -/
def next (subscribers : ℕ) (s : State ι α) : Act ι α → Option (State ι α)
  | .operatorCall priority delayPoint data std =>
    some {s with
      chan := s.chan.operatorCall priority delayPoint data std
      sent := ⟨priority,delayPoint,some data⟩::s.sent}
  | .get i =>
    match s.frame i with
    | .idle => some (s.goto i .atSem)
    | _ => none
  | .update i =>
    match s.frame i with
    | .idle => if s.chan.empty=true then some s else some (s.goto i .atSem)
    | _ => none
  | .wait i timeout reading =>
    match s.frame i with
    | .idle =>
      if timeout > 0 then some (s.goto i (.polling (reading+timeout)))
      else some (s.goto i .atSem)
    | _ => none
  | .poll i reading =>
    match s.frame i with
    | .polling mark =>
      if reading ≤ mark then
        if s.chan.empty=true then some s else some (s.goto i .atSem)
      else some (s.goto i .idle)
    | _ => none
  | .semWait i =>
    match s.frame i with
    | .atSem => s.chan.semWait.map fun chan => {s.goto i .waiting with chan := chan}
    | _ => none
  | .readClock i reading =>
    match s.frame i with
    | .waiting =>
      match s.chan.moveBack with
      | none => none
      | some (t,chan) =>
        if reading < t.timestamp then some s
        else some {s.goto i (.dispatching t 0) with
          chan := chan
          running := i::s.running
          handed := ⟨t,reading,s.chan.queue.tail⟩::s.handed}
    | _ => none
  | .handlerReturns i =>
    match s.frame i,s.running with
    | .dispatching t k,j::_ =>
      if i=j ∧ k < subscribers then some (s.goto i (.dispatching t (k+1))) else none
    | _,_ => none
  | .popBack i =>
    match s.frame i,s.running with
    | .dispatching t k,j::rest =>
      if i=j ∧ k=subscribers then
        s.chan.popBack.map fun (b,chan) => {s.goto i .idle with
          chan := chan
          running := rest
          removed := (t,b)::s.removed}
      else none
    | _,_ => none
  | .handlerThrows i =>
    match s.frame i,s.running with
    | .dispatching _ k,j::rest =>
      if i=j ∧ k < subscribers then
        some {s.goto i .idle with running := rest,thrown := s.thrown+1}
      else none
    | _,_ => none

/-- Everything an accepted step can do. Calls which do not pass the semaphore
only move their own activation between positions outside the receive. -/
inductive Effect (subscribers : ℕ) (s : State ι α) : Act ι α → State ι α → Prop
  | operatorCall (priority delayPoint : ℤ) (data : α) (std : StdSort α) :
      Effect subscribers s (.operatorCall priority delayPoint data std) {s with
        chan := s.chan.operatorCall priority delayPoint data std
        sent := ⟨priority,delayPoint,some data⟩::s.sent}
  | stays (a : Act ι α) : Effect subscribers s a s
  | moves (a : Act ι α) (i : ι) (f : Frame α) :
      (s.frame i).inside=false → f.inside=false → Effect subscribers s a (s.goto i f)
  | semWait (i : ι) (chan : AsyncDelay α) :
      s.frame i=.atSem → s.chan.semWait=some chan →
        Effect subscribers s (.semWait i) {s.goto i .waiting with chan := chan}
  | handsOver (i : ι) (reading : ℤ) (t : Message α) (chan : AsyncDelay α) :
      s.frame i=.waiting → s.chan.moveBack=some (t,chan) → t.timestamp ≤ reading →
        Effect subscribers s (.readClock i reading) {s.goto i (.dispatching t 0) with
          chan := chan
          running := i::s.running
          handed := ⟨t,reading,s.chan.queue.tail⟩::s.handed}
  | handlerReturns (i : ι) (t : Message α) (k : ℕ) (rest : List ι) :
      s.frame i=.dispatching t k → s.running=i::rest → k < subscribers →
        Effect subscribers s (.handlerReturns i) (s.goto i (.dispatching t (k+1)))
  | popBack (i : ι) (t b : Message α) (rest : List ι) (chan : AsyncDelay α) :
      s.frame i=.dispatching t subscribers → s.running=i::rest →
        s.chan.popBack=some (b,chan) →
        Effect subscribers s (.popBack i) {s.goto i .idle with
          chan := chan
          running := rest
          removed := (t,b)::s.removed}
  | handlerThrows (i : ι) (t : Message α) (k : ℕ) (rest : List ι) :
      s.frame i=.dispatching t k → s.running=i::rest → k < subscribers →
        Effect subscribers s (.handlerThrows i)
          {s.goto i .idle with running := rest,thrown := s.thrown+1}

/-- The step function has no other effects. -/
theorem next_effect {subscribers : ℕ} {s s' : State ι α} {a : Act ι α}
    (h : next subscribers s a=some s') : Effect subscribers s a s' := by
  cases a with
  | operatorCall priority delayPoint data std =>
    cases h
    exact .operatorCall priority delayPoint data std
  | get i =>
    simp only [next] at h
    split at h <;> cases h
    rename_i hf
    exact .moves _ i _ (by rw [hf]; rfl) rfl
  | update i =>
    simp only [next] at h
    split at h
    · rename_i hf
      split at h <;> cases h
      · exact .stays _
      · exact .moves _ i _ (by rw [hf]; rfl) rfl
    · cases h
  | wait i timeout reading =>
    simp only [next] at h
    split at h
    · rename_i hf
      split at h <;> cases h
      · exact .moves _ i _ (by rw [hf]; rfl) rfl
      · exact .moves _ i _ (by rw [hf]; rfl) rfl
    · cases h
  | poll i reading =>
    simp only [next] at h
    split at h
    · rename_i mark hf
      split at h
      · split at h <;> cases h
        · exact .stays _
        · exact .moves _ i _ (by rw [hf]; rfl) rfl
      · cases h
        exact .moves _ i _ (by rw [hf]; rfl) rfl
    · cases h
  | semWait i =>
    simp only [next] at h
    split at h
    · rename_i hf
      obtain ⟨chan,hw,rfl⟩ := Option.map_eq_some_iff.mp h
      exact .semWait i chan hf hw
    · cases h
  | readClock i reading =>
    simp only [next] at h
    split at h
    · rename_i hf
      split at h
      · cases h
      · rename_i t chan hm
        split at h <;> cases h
        · exact .stays _
        · rename_i hdue
          exact .handsOver i reading t chan hf hm (by omega)
    · cases h
  | handlerReturns i =>
    simp only [next] at h
    split at h
    · rename_i t k j rest hf hr
      split at h <;> cases h
      rename_i hc
      exact .handlerReturns i t k rest hf (hc.1 ▸ hr) hc.2
    · cases h
  | popBack i =>
    simp only [next] at h
    split at h
    · rename_i t k j rest hf hr
      split at h
      · rename_i hc
        obtain ⟨⟨b,chan⟩,hp,rfl⟩ := Option.map_eq_some_iff.mp h
        exact .popBack i t b rest chan (hc.2 ▸ hf) (hc.1 ▸ hr) hp
      · cases h
    · cases h
  | handlerThrows i =>
    simp only [next] at h
    split at h
    · rename_i t k j rest hf hr
      split at h <;> cases h
      rename_i hc
      exact .handlerThrows i t k rest hf (hc.1 ▸ hr) hc.2
    · cases h

/-- A due back entry ends the wait loop of a waiting call. -/
theorem next_readClock_due (subscribers : ℕ) {s : State ι α} {i : ι} {reading : ℤ}
    {t : Message α} {rest : List (Message α)} (hf : s.frame i=.waiting)
    (hq : s.chan.queue=t::rest) (hdue : t.timestamp ≤ reading) :
    next subscribers s (.readClock i reading)=some {s.goto i (.dispatching t 0) with
      chan := {s.chan with queue := t.movedFrom::rest}
      running := i::s.running
      handed := ⟨t,reading,rest⟩::s.handed} := by
  have hnot : ¬reading < t.timestamp := by omega
  have hmove : s.chan.moveBack=some (t,{s.chan with queue := t.movedFrom::rest}) := by
    simp only [AsyncDelay.moveBack,hq]
  simp only [next,hf,hmove,if_neg hnot,hq,List.tail_cons]

/-- A clock reading is only accepted from a waiting call. -/
theorem readClock_waiting {subscribers : ℕ} {s s' : State ι α} {i : ι} {reading : ℤ}
    (h : next subscribers s (.readClock i reading)=some s') : s.frame i=.waiting := by
  simp only [next] at h
  split at h
  · assumption
  · cases h

/-- A pop is only accepted from the innermost call, which records the entry
it destroys. -/
theorem next_popBack {subscribers : ℕ} {s s' : State ι α} {i : ι}
    (h : next subscribers s (.popBack i)=some s') :
    ∃ t b rest,s.frame i=.dispatching t subscribers ∧ s.running=i::rest ∧
      s.chan.queue=b::s'.chan.queue ∧ s'.removed=(t,b)::s.removed := by
  simp only [next] at h
  split at h
  · rename_i t k j rest hf hr
    split at h
    · rename_i hc
      obtain ⟨⟨b,chan⟩,hp,rfl⟩ := Option.map_eq_some_iff.mp h
      exact ⟨t,b,rest,hc.2 ▸ hf,hc.1 ▸ hr,(popBack_eq_some hp).1,rfl⟩
    · cases h
  · cases h

omit [DecidableEq ι] in
/-- An activation outside the receive dispatches nothing. -/
theorem message_of_outside {f : Frame α} (h : f.inside=false) : f.message=none := by
  cases f with
  | dispatching t k => contradiction
  | _ => rfl

/-- The dispatched messages depend only on what the running calls dispatch. -/
theorem filterMap_message_update {frame : ι → Frame α} {i : ι} {f : Frame α} {running : List ι}
    (h : i∈running → f.message=(frame i).message) :
    (running.filterMap fun j => (Function.update frame i f j).message)=
      running.filterMap fun j => (frame j).message := by
  refine List.filterMap_congr fun j hj => ?_
  by_cases hji : j=i
  · subst hji
    rw [Function.update_self,h hj]
  · rw [Function.update_of_ne hji]

/-- Moving one activation changes the number inside by its own difference. -/
theorem inside_goto [Fintype ι] (s : State ι α) (i : ι) (f : Frame α) :
    (s.goto i f).inside+(s.frame i).inside.toNat=s.inside+f.inside.toNat := by
  have hcard : ∀ frame : ι → Frame α,
      (Finset.univ.filter fun i => (frame i).inside=true).card=
        total (fun _ f => Bool.toNat (Frame.inside f)) frame := by
    intro frame
    rw [Finset.card_filter,total]
    refine Finset.sum_congr rfl fun j _ => ?_
    cases (frame j).inside <;> rfl
  rw [State.inside,State.inside,hcard,hcard]
  exact total_update (fun _ f => Bool.toNat (Frame.inside f)) s.frame i f

/-- Every step of every activation keeps the balance, whatever the handlers
do and whichever caller runs. -/
theorem matched_step [Fintype ι] {subscribers : ℕ} {s s' : State ι α} {a : Act ι α}
    (hb : Matched s) (h : next subscribers s a=some s') : Matched s' := by
  unfold Matched at hb ⊢
  cases next_effect h with
  | operatorCall priority delayPoint data std =>
    change _=_+s.inside+s.thrown
    rw [operatorCall_length,operatorCall_sem]
    omega
  | stays => exact hb
  | moves _ i f hold hnew =>
    have hc := inside_goto s i f
    rw [hold,hnew] at hc
    change s.chan.queue.length=s.chan.sem.len+(s.goto i f).inside+s.thrown
    simp only [Bool.toNat_false] at hc
    omega
  | semWait i chan hf hw =>
    have hc := inside_goto s i .waiting
    obtain ⟨hq,hs⟩ := semWait_eq_some hw
    change chan.queue.length=chan.sem.len+(s.goto i .waiting).inside+s.thrown
    simp only [hf,Frame.inside,Bool.toNat_false,Bool.toNat_true] at hc
    rw [hq]
    omega
  | handsOver i reading t chan hf hm hdue =>
    have hc := inside_goto s i (.dispatching t 0)
    obtain ⟨rest,hq,hq',hs⟩ := moveBack_eq_some hm
    change chan.queue.length=chan.sem.len+(s.goto i (.dispatching t 0)).inside+s.thrown
    simp only [hf,Frame.inside,Bool.toNat_true] at hc
    rw [hq,List.length_cons] at hb
    rw [hq',hs,List.length_cons]
    omega
  | handlerReturns i t k rest hf hr hk =>
    have hc := inside_goto s i (.dispatching t (k+1))
    change s.chan.queue.length=s.chan.sem.len+(s.goto i (.dispatching t (k+1))).inside+s.thrown
    simp only [hf,Frame.inside,Bool.toNat_true] at hc
    omega
  | popBack i t b rest chan hf hr hp =>
    have hc := inside_goto s i .idle
    obtain ⟨hq,hs⟩ := popBack_eq_some hp
    change chan.queue.length=chan.sem.len+(s.goto i .idle).inside+s.thrown
    simp only [hf,Frame.inside,Bool.toNat_false,Bool.toNat_true] at hc
    rw [hq,List.length_cons] at hb
    rw [hs]
    omega
  | handlerThrows i t k rest hf hr hk =>
    have hc := inside_goto s i .idle
    change s.chan.queue.length=s.chan.sem.len+(s.goto i .idle).inside+(s.thrown+1)
    simp only [hf,Frame.inside,Bool.toNat_false,Bool.toNat_true] at hc
    omega

end FastEventSystem.DelayCalls
