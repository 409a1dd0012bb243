import FastEventSystem.FastChannel
import FastEventSystem.GuardedRuns
import FastEventSystem.PartyTotals
import Mathlib.Data.Multiset.AddSub

/-!
# Threads and coroutines on one fast channel

Every thread or coroutine has its own stack of calls. A handler runs inside
the dispatching frame of its receive and may itself send, receive, return or
throw. Steps of different threads interleave without restriction, between any
two of: storing a tuple, notifying, reading the count, passing the semaphore,
dequeuing, handing over. The count, the tuples between the two counters and
the tuples taken but not yet handed over are totals over all stacks.
-/

namespace FastEventSystem.FastThreads

open CountingSemaphore FastChannel GuardedRuns PartyTotals

/-- One call in progress. -/
inductive Frame (α : Type*) where
  /-- In `operator()`, after `enqueue` and before `_sem.notify`. -/
  | notifying
  /-- In the timed loop of `wait`, before its next clock reading. -/
  | polling (mark : ℤ) (yields : Bool)
  /-- In `_get`, at `_sem.wait()`. -/
  | atSem (yields : Bool)
  /-- In `_get(yield)`, past `_sem.wait()`, before the next test of the count. -/
  | looping
  /-- Past `_sem.wait()`, at `wait_dequeue`. -/
  | passed
  /-- `wait_dequeue` has returned this tuple. -/
  | taken (t : Tuple α)
  /-- `_output` runs on this tuple. -/
  | dispatching (t : Tuple α)
  deriving DecidableEq

variable {ι α : Type*}

/-- A producer between `enqueue` and `notify`. -/
def Frame.producing : Frame α → ℕ
  | .notifying => 1
  | _ => 0

/-- A consumer between `_sem.wait()` and `wait_dequeue`. -/
def Frame.consuming : Frame α → ℕ
  | .looping => 1
  | .passed => 1
  | _ => 0

/-- A consumer with a tuple: its thread, the depth of its call, and the tuple. -/
structure Receipt (ι α : Type*) where
  /-- Thread or coroutine of the consumer. -/
  thread : ι
  /-- Number of calls below the receive on that thread's stack. -/
  depth : ℕ
  /-- The tuple. -/
  tuple : Tuple α
  deriving DecidableEq

/-- The tuple of a call between `wait_dequeue` and the hand-over. -/
def Frame.holding (i : ι) (depth : ℕ) : Frame α → Multiset (Receipt ι α)
  | .taken t => {⟨i,depth,t⟩}
  | _ => 0

/-- The channel, all stacks and the histories. -/
structure State (ι α : Type*) where
  /-- The channel itself. -/
  chan : AsyncFast α
  /-- Every thread's calls, innermost first. -/
  stack : ι → List (Frame α)
  /-- Number of sends so far. -/
  tickets : ℕ
  /-- History of sent tuples. -/
  sent : List (Tuple α)
  /-- History of tuples returned by `wait_dequeue`. -/
  taken : List (Receipt ι α)
  /-- History of tuples handed to `_output`. -/
  handed : List (Receipt ι α)

/-- Nothing sent and nobody calling. -/
def State.start : State ι α := ⟨.fresh,fun _ => [],0,[],[],[]⟩

/-- One step of a thread. -/
inductive Act (ι α : Type*) where
  /-- Enter `operator()` and store the tuple. -/
  | enqueue (i : ι) (data : α)
  /-- Notify and leave `operator()`. -/
  | notify (i : ι)
  /-- Call `get()` or `get(yield)`. -/
  | get (i : ι) (yields : Bool)
  /-- Call `update()`, reading the count. -/
  | update (i : ι)
  /-- Call `wait(timeout)` or `wait(yield,timeout)` at the given reading. -/
  | wait (i : ι) (timeout reading : ℤ) (yields : Bool)
  /-- One turn of the timed loop of `wait`. -/
  | poll (i : ι) (reading : ℤ)
  /-- Pass `_sem.wait()`. -/
  | semWait (i : ι)
  /-- One test of the yielding loop of `_get(yield)`. -/
  | testCount (i : ι)
  /-- `wait_dequeue` returns the tuple stored at a position. -/
  | waitDequeue (i : ι) (position : ℕ)
  /-- Hand the tuple to `_output`. -/
  | handOver (i : ι)
  /-- All subscribers returned: return the tuple. -/
  | returns (i : ι)
  /-- A subscriber threw, and the exception leaves the call. -/
  | throws (i : ι)

/-- The thread's own code or a handler runs, so it may call. -/
def mayCall : List (Frame α) → Bool
  | [] => true
  | .dispatching _::_ => true
  | _ => false

/-- A call outside the sections the counts and histories speak about. -/
def Frame.plain : Frame α → Bool
  | .polling _ _ => true
  | .atSem _ => true
  | .dispatching _ => true
  | _ => false

variable [DecidableEq ι]

/-- Replace one thread's stack. -/
def State.goto (s : State ι α) (i : ι) (st : List (Frame α)) : State ι α :=
  {s with stack := Function.update s.stack i st}

/-- Make a call from the thread's current position. -/
def State.call (s : State ι α) (i : ι) (f : Frame α) : Option (State ι α) :=
  if mayCall (s.stack i)=true then some (s.goto i (f::s.stack i)) else none

/-- Perform one step. -/
def next (s : State ι α) : Act ι α → Option (State ι α)
  | .enqueue i data =>
    (s.call i .notifying).map fun s' => {s' with
      chan := s.chan.enqueue ⟨s.tickets,data⟩
      tickets := s.tickets+1
      sent := ⟨s.tickets,data⟩::s.sent}
  | .notify i =>
    match s.stack i with
    | .notifying::rest => some {s.goto i rest with chan := s.chan.notify}
    | _ => none
  | .get i yields => s.call i (.atSem yields)
  | .update i =>
    if s.chan.empty=true then (if mayCall (s.stack i)=true then some s else none)
    else s.call i (.atSem false)
  | .wait i timeout reading yields =>
    if timeout > 0 then s.call i (.polling (reading+timeout) yields)
    else s.call i (.atSem yields)
  | .poll i reading =>
    match s.stack i with
    | .polling mark yields::rest =>
      if reading ≤ mark then
        if s.chan.empty=true then some s else some (s.goto i (.atSem yields::rest))
      else some (s.goto i rest)
    | _ => none
  | .semWait i =>
    match s.stack i with
    | .atSem yields::rest =>
      s.chan.semWait.map fun chan =>
        {s.goto i ((if yields=true then .looping else .passed)::rest) with chan := chan}
    | _ => none
  | .testCount i =>
    match s.stack i with
    | .looping::rest => if s.chan.size=0 then some s else some (s.goto i (.passed::rest))
    | _ => none
  | .waitDequeue i position =>
    match s.stack i with
    | .passed::rest =>
      (s.chan.waitDequeue position).map fun (t,chan) => {s.goto i (.taken t::rest) with
        chan := chan
        taken := ⟨i,rest.length,t⟩::s.taken}
    | _ => none
  | .handOver i =>
    match s.stack i with
    | .taken t::rest => some {s.goto i (.dispatching t::rest) with
        handed := ⟨i,rest.length,t⟩::s.handed}
    | _ => none
  | .returns i =>
    match s.stack i with
    | .dispatching _::rest => some (s.goto i rest)
    | _ => none
  | .throws i =>
    match s.stack i with
    | .dispatching _::rest => some (s.goto i rest)
    | _ => none

/-- Everything an accepted step can do. -/
inductive Effect (s : State ι α) : Act ι α → State ι α → Prop
  | enqueue (i : ι) (data : α) :
      Effect s (.enqueue i data) {s.goto i (.notifying::s.stack i) with
        chan := s.chan.enqueue ⟨s.tickets,data⟩
        tickets := s.tickets+1
        sent := ⟨s.tickets,data⟩::s.sent}
  | notify (i : ι) (rest : List (Frame α)) :
      s.stack i=.notifying::rest → Effect s (.notify i) {s.goto i rest with chan := s.chan.notify}
  | stays (a : Act ι α) : Effect s a s
  | calls (a : Act ι α) (i : ι) (f : Frame α) :
      f.plain=true → Effect s a (s.goto i (f::s.stack i))
  | turns (a : Act ι α) (i : ι) (f g : Frame α) (rest : List (Frame α)) :
      s.stack i=f::rest → f.plain=true → g.plain=true → Effect s a (s.goto i (g::rest))
  | leaves (a : Act ι α) (i : ι) (f : Frame α) (rest : List (Frame α)) :
      s.stack i=f::rest → f.plain=true → Effect s a (s.goto i rest)
  | semWait (i : ι) (yields : Bool) (g : Frame α) (rest : List (Frame α)) (chan : AsyncFast α) :
      s.stack i=.atSem yields::rest → g=.looping ∨ g=.passed → s.chan.semWait=some chan →
        Effect s (.semWait i) {s.goto i (g::rest) with chan := chan}
  | loopEnds (i : ι) (rest : List (Frame α)) :
      s.stack i=.looping::rest → Effect s (.testCount i) (s.goto i (.passed::rest))
  | waitDequeue (i : ι) (position : ℕ) (t : Tuple α) (rest : List (Frame α))
      (chan : AsyncFast α) :
      s.stack i=.passed::rest → s.chan.waitDequeue position=some (t,chan) →
        Effect s (.waitDequeue i position) {s.goto i (.taken t::rest) with
          chan := chan
          taken := ⟨i,rest.length,t⟩::s.taken}
  | handOver (i : ι) (t : Tuple α) (rest : List (Frame α)) :
      s.stack i=.taken t::rest → Effect s (.handOver i) {s.goto i (.dispatching t::rest) with
        handed := ⟨i,rest.length,t⟩::s.handed}

/-- A call with a plain frame is a plain call. -/
theorem call_effect {s s' : State ι α} {i : ι} {f : Frame α} (a : Act ι α) (hf : f.plain=true)
    (h : s.call i f=some s') : Effect s a s' := by
  unfold State.call at h
  split at h <;> cases h
  exact .calls a i f hf

/-- The step function has no other effects. -/
theorem next_effect {s s' : State ι α} {a : Act ι α} (h : next s a=some s') : Effect s a s' := by
  cases a with
  | enqueue i data =>
    simp only [next,State.call] at h
    split at h <;> cases h
    exact .enqueue i data
  | notify i =>
    simp only [next] at h
    split at h <;> cases h
    rename_i rest hs
    exact .notify i rest hs
  | get i yields => exact call_effect _ rfl h
  | update i =>
    simp only [next] at h
    split at h
    · split at h <;> cases h
      exact .stays _
    · exact call_effect _ rfl h
  | wait i timeout reading yields =>
    simp only [next] at h
    split at h
    · exact call_effect _ rfl h
    · exact call_effect _ rfl h
  | poll i reading =>
    simp only [next] at h
    split at h
    · rename_i mark yields rest hs
      split at h
      · split at h <;> cases h
        · exact .stays _
        · exact .turns _ i _ _ rest hs rfl rfl
      · cases h
        exact .leaves _ i _ rest hs rfl
    · cases h
  | semWait i =>
    simp only [next] at h
    split at h
    · rename_i yields rest hs
      obtain ⟨chan,hw,rfl⟩ := Option.map_eq_some_iff.mp h
      refine .semWait i yields _ rest chan hs ?_ hw
      cases yields with
      | true => exact .inl rfl
      | false => exact .inr rfl
    · cases h
  | testCount i =>
    simp only [next] at h
    split at h
    · rename_i rest hs
      split at h <;> cases h
      · exact .stays _
      · exact .loopEnds i rest hs
    · cases h
  | waitDequeue i position =>
    simp only [next] at h
    split at h
    · rename_i rest hs
      obtain ⟨⟨t,chan⟩,hd,rfl⟩ := Option.map_eq_some_iff.mp h
      exact .waitDequeue i position t rest chan hs hd
    · cases h
  | handOver i =>
    simp only [next] at h
    split at h <;> cases h
    rename_i t rest hs
    exact .handOver i t rest hs
  | returns i =>
    simp only [next] at h
    split at h <;> cases h
    rename_i t rest hs
    exact .leaves _ i _ rest hs rfl
  | throws i =>
    simp only [next] at h
    split at h <;> cases h
    rename_i t rest hs
    exact .leaves _ i _ rest hs rfl

/-- The thread which takes a step. -/
def actor : Act ι α → ι
  | .enqueue i _ => i
  | .notify i => i
  | .get i _ => i
  | .update i => i
  | .wait i _ _ _ => i
  | .poll i _ => i
  | .semWait i => i
  | .testCount i => i
  | .waitDequeue i _ => i
  | .handOver i => i
  | .returns i => i
  | .throws i => i

/-- What a step may make of the stack of its own thread. -/
inductive Moves (st : List (Frame α)) : List (Frame α) → Prop
  | stays : Moves st st
  | calls (f : Frame α) : mayCall st=true → Moves st (f::st)
  | turns (f g : Frame α) (rest : List (Frame α)) : st=f::rest → Moves st (g::rest)
  | leaves (f : Frame α) (rest : List (Frame α)) : st=f::rest → Moves st rest

/-- A step which changes nothing leaves all stacks. -/
theorem moves_same (s : State ι α) (i : ι) :
    ∃ st,Moves (s.stack i) st ∧ s.stack=Function.update s.stack i st :=
  ⟨s.stack i,.stays,(Function.update_eq_self i s.stack).symm⟩

/-- A call moves its own thread. -/
theorem call_moves {s s' : State ι α} {i : ι} {f : Frame α} (h : s.call i f=some s') :
    ∃ st,Moves (s.stack i) st ∧ s'.stack=Function.update s.stack i st := by
  unfold State.call at h
  split at h <;> cases h
  rename_i hmay
  exact ⟨_,.calls f hmay,rfl⟩

/-- Every step moves its own thread, and no other one. -/
theorem next_moves {s s' : State ι α} {a : Act ι α} (h : next s a=some s') :
    ∃ st,Moves (s.stack (actor a)) st ∧ s'.stack=Function.update s.stack (actor a) st := by
  cases a with
  | enqueue i data =>
    simp only [next,Option.map_eq_some_iff] at h
    obtain ⟨u,hu,rfl⟩ := h
    obtain ⟨st,hst,hstack⟩ := call_moves hu
    exact ⟨st,hst,hstack⟩
  | get i yields => exact call_moves h
  | update i =>
    simp only [next] at h
    split at h
    · split at h <;> cases h
      exact moves_same s i
    · exact call_moves h
  | wait i timeout reading yields =>
    simp only [next] at h
    split at h
    · exact call_moves h
    · exact call_moves h
  | poll i reading =>
    simp only [next] at h
    split at h
    · rename_i htop
      split at h
      · split at h <;> cases h
        · exact moves_same s i
        · exact ⟨_,.turns _ _ _ htop,rfl⟩
      · cases h
        exact ⟨_,.leaves _ _ htop,rfl⟩
    · cases h
  | semWait i | waitDequeue i position =>
    simp only [next] at h
    split at h
    · rename_i htop
      obtain ⟨taken,-,rfl⟩ := Option.map_eq_some_iff.mp h
      exact ⟨_,.turns _ _ _ htop,rfl⟩
    · cases h
  | testCount i =>
    simp only [next] at h
    split at h
    · rename_i htop
      split at h <;> cases h
      · exact moves_same s i
      · exact ⟨_,.turns _ _ _ htop,rfl⟩
    · cases h
  | handOver i =>
    simp only [next] at h
    split at h <;> cases h
    rename_i htop
    exact ⟨_,.turns _ _ _ htop,rfl⟩
  | notify i | returns i | throws i =>
    simp only [next] at h
    split at h <;> cases h
    rename_i htop
    exact ⟨_,.leaves _ _ htop,rfl⟩

end FastEventSystem.FastThreads
