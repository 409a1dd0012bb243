import FastEventSystem.FastAccounting

/-!
# The coroutine receive of a fast channel against the blocking one

Both receives pass `_sem.wait`, which takes their own unit of the count. The
blocking one then dequeues. The coroutine one first tests the count that is
left, and yields while it is zero: it waits for a unit besides its own. The
two therefore agree exactly where the call finds at least two, and with one
pending tuple the coroutine stays in its loop until somebody notifies.
-/

namespace FastEventSystem.FastYield

open CountingSemaphore FastChannel FastThreads FastAccounting GuardedRuns

variable {ι α : Type*}

/-- `get()` up to the hand-over, run without interruption. -/
def blockingGet (i : ι) (position : ℕ) : List (Act ι α) :=
  [.get i false,.semWait i,.waitDequeue i position,.handOver i]

/-- `get(yield)` up to the hand-over, with a number of tests of the count. -/
def yieldingGet (i : ι) (tests position : ℕ) : List (Act ι α) :=
  [.get i true,.semWait i]++List.replicate tests (.testCount i)++
    [.waitDequeue i position,.handOver i]

/-- Consecutive `get()` calls whose handlers return. -/
def blockingGets (i : ι) (positions : List ℕ) : List (Act ι α) :=
  positions.flatMap fun position => blockingGet i position++[.returns i]

/-- Consecutive `get(yield)` calls whose handlers return. -/
def yieldingGets (i : ι) (calls : List (ℕ×ℕ)) : List (Act ι α) :=
  calls.flatMap fun call => yieldingGet i call.1 call.2++[.returns i]

/-- No message arrives: nobody reaches `_sem.notify`. -/
def Silent (_ : State ι α) : Act ι α → Prop
  | .notify _ => False
  | _ => True

variable [DecidableEq ι]

/-- Perform the steps one after the other. -/
def perform (s : State ι α) (acts : List (Act ι α)) : Option (State ι α) :=
  replay next Unrestricted s acts

/-- The handlers run on a tuple which the call has just taken. -/
def handing (s : State ι α) (i : ι) (t : Tuple α) (chan : AsyncFast α) : State ι α :=
  {s.goto i (.dispatching t::s.stack i) with
    chan := chan
    taken := ⟨i,(s.stack i).length,t⟩::s.taken
    handed := ⟨i,(s.stack i).length,t⟩::s.handed}

/-- The handlers of that call have returned. -/
def received (s : State ι α) (i : ι) (t : Tuple α) (chan : AsyncFast α) : State ι α :=
  {s with
    chan := chan
    taken := ⟨i,(s.stack i).length,t⟩::s.taken
    handed := ⟨i,(s.stack i).length,t⟩::s.handed}

/-- Steps in a row. -/
theorem perform_append (s : State ι α) (acts more : List (Act ι α)) :
    perform s (acts++more)=(perform s acts).bind fun u => perform u more :=
  replay_of_append _ _ _ _ _

/-- A first step. -/
theorem perform_cons (s : State ι α) (a : Act ι α) (acts : List (Act ι α)) :
    perform s (a::acts)=(next s a).bind fun u => perform u acts := by
  have hok : Unrestricted s a := trivial
  rw [perform,replay,if_pos hok]
  rfl

/-- The state in which the call has passed the semaphore. -/
def pastSem (s : State ι α) (i : ι) (f : Frame α) (len : ℕ) : State ι α :=
  {s.goto i (f::s.stack i) with chan := {s.chan with sem := ⟨len⟩}}

/-- Calling and passing the semaphore takes one unit of the count. -/
theorem perform_get_semWait {s : State ι α} {i : ι} (hcall : mayCall (s.stack i)=true)
    {len : ℕ} (hlen : s.chan.size=len+1) (yields : Bool) :
    perform s [.get i yields,.semWait i]=
      some (pastSem s i (if yields=true then .looping else .passed) len) := by
  have hwait : s.chan.sem.wait=some ⟨len⟩ := Semaphore.wait_eq_some.mpr hlen
  rw [perform_cons]
  simp only [next,State.call,if_pos hcall,Option.bind_some,perform_cons,State.goto,
    Function.update_self,AsyncFast.semWait,hwait,Option.map_some,Function.update_idem]
  rfl

/-- Past the semaphore, the dequeue and the hand-over finish the receive. -/
theorem perform_dequeue (s : State ι α) (i : ι) (len position : ℕ) :
    perform (pastSem s i .passed len) [.waitDequeue i position,.handOver i]=
      (s.chan.queue[position]?).map fun t =>
        handing s i t ⟨s.chan.queue.eraseIdx position,⟨len⟩⟩ := by
  rw [perform_cons]
  simp only [next,pastSem,State.goto,Function.update_self,AsyncFast.waitDequeue,Option.map_map]
  cases s.chan.queue[position]? with
  | none => rfl
  | some t =>
    simp only [Option.map_some,Function.comp_apply,Option.bind_some,perform_cons,next,State.goto,
      Function.update_self,Function.update_idem]
    rfl

/-- What `get()` does. -/
theorem perform_blockingGet {s : State ι α} {i : ι} (hcall : mayCall (s.stack i)=true)
    {len : ℕ} (hlen : s.chan.size=len+1) (position : ℕ) :
    perform s (blockingGet i position)=
      (s.chan.queue[position]?).map fun t =>
        handing s i t ⟨s.chan.queue.eraseIdx position,⟨len⟩⟩ := by
  have hsplit : (blockingGet i position : List (Act ι α))=
      [.get i false,.semWait i]++[.waitDequeue i position,.handOver i] := rfl
  rw [hsplit,perform_append,perform_get_semWait hcall hlen,Option.bind_some]
  exact perform_dequeue s i len position

/-- With a unit left besides its own, `get(yield)` tests once and goes on. -/
theorem perform_yieldingGet_one {s : State ι α} {i : ι} (hcall : mayCall (s.stack i)=true)
    {len : ℕ} (hlen : s.chan.size=len+2) (position : ℕ) :
    perform s (yieldingGet i 1 position)=perform s (blockingGet i position) := by
  have hsplit : (yieldingGet i 1 position : List (Act ι α))=
      [.get i true,.semWait i]++([.testCount i]++[.waitDequeue i position,.handOver i]) := rfl
  have htest : perform (pastSem s i .looping (len+1)) [.testCount i]=
      some (pastSem s i .passed (len+1)) := by
    rw [perform_cons]
    simp only [next,pastSem,State.goto,Function.update_self,Function.update_idem]
    rfl
  rw [perform_blockingGet hcall hlen,hsplit,perform_append,perform_get_semWait hcall hlen,
    Option.bind_some,if_pos rfl,perform_append,htest,Option.bind_some]
  exact perform_dequeue s i (len+1) position

/-- With its own unit the last one, `get(yield)` tests for ever. -/
theorem perform_tests {s : State ι α} {i : ι} (tests : ℕ) :
    perform (pastSem s i .looping 0) (List.replicate tests (.testCount i))=
      some (pastSem s i .looping 0) := by
  induction tests with
  | zero => rfl
  | succ tests ih =>
    rw [List.replicate_succ,perform_cons]
    simp only [next,pastSem,State.goto,Function.update_self]
    exact ih

/-- A completed `get(yield)` found two units at its call. -/
theorem two_le_of_perform_yieldingGet {s s' : State ι α} {i : ι} {tests position : ℕ}
    (hcall : mayCall (s.stack i)=true) (hpos : 0 < s.chan.size)
    (h : perform s (yieldingGet i tests position)=some s') : 2 ≤ s.chan.size := by
  by_contra hlt
  have hone : s.chan.size=0+1 := by omega
  rw [yieldingGet,perform_append,perform_append,perform_get_semWait hcall hone,Option.bind_some,
    if_pos rfl,perform_tests,Option.bind_some,perform_cons] at h
  simp only [next,pastSem,State.goto,Function.update_self,Option.bind_none,reduceCtorEq] at h

/-- A completed `get(yield)` tested the count once. -/
theorem tests_of_perform_yieldingGet {s s' : State ι α} {i : ι} {tests position len : ℕ}
    (hcall : mayCall (s.stack i)=true) (hlen : s.chan.size=len+2)
    (h : perform s (yieldingGet i tests position)=some s') : tests=1 := by
  rw [yieldingGet,perform_append,perform_append,perform_get_semWait hcall hlen,Option.bind_some,
    if_pos rfl] at h
  cases tests with
  | zero =>
    rw [List.replicate_zero,perform,replay,Option.bind_some,perform_cons] at h
    simp only [next,pastSem,State.goto,Function.update_self,Option.bind_none,reduceCtorEq] at h
  | succ tests =>
    cases tests with
    | zero => rfl
    | succ tests =>
      rw [List.replicate_succ,perform_cons] at h
      simp only [next,pastSem,State.goto,Function.update_self,Function.update_idem,AsyncFast.size,
        Semaphore.size,Nat.add_eq_zero_iff,one_ne_zero,and_false,if_false,Option.bind_some,
        List.replicate_succ,perform_cons,Option.bind_none,reduceCtorEq] at h

/-- A receive whose handlers return. -/
theorem perform_returns (s : State ι α) (i : ι) (t : Tuple α) (chan : AsyncFast α) :
    perform (handing s i t chan) [.returns i]=some (received s i t chan) := by
  rw [perform_cons]
  simp only [next,handing,State.goto,Function.update_self,Function.update_idem,
    Function.update_eq_self]
  rfl

/-- What `get()` does when its handlers return. -/
theorem perform_blockingGet_returns {s : State ι α} {i : ι} (hcall : mayCall (s.stack i)=true)
    {len : ℕ} (hlen : s.chan.size=len+1) (position : ℕ) :
    perform s (blockingGet i position++[.returns i])=
      (s.chan.queue[position]?).map fun t =>
        received s i t ⟨s.chan.queue.eraseIdx position,⟨len⟩⟩ := by
  rw [perform_append,perform_blockingGet hcall hlen]
  cases s.chan.queue[position]? with
  | none => rfl
  | some t =>
    rw [Option.map_some,Option.bind_some]
    exact perform_returns s i t _

/-- Fewer `get()` calls than units are done as well by `get(yield)`. -/
theorem perform_yieldingGets {s : State ι α} {i : ι} (hcall : mayCall (s.stack i)=true)
    (positions : List ℕ) (hlt : positions.length < s.chan.size) :
    perform s (yieldingGets i (positions.map fun position => (1,position)))=
      perform s (blockingGets i positions) := by
  induction positions generalizing s with
  | nil => rfl
  | cons position positions ih =>
    obtain ⟨len,hlen⟩ : ∃ len,s.chan.size=len+2 :=
      ⟨s.chan.size-2,by rw [List.length_cons] at hlt; omega⟩
    have hhead : perform s (yieldingGet i 1 position++[.returns i])=
        perform s (blockingGet i position++[.returns i]) := by
      rw [perform_append,perform_append,perform_yieldingGet_one hcall hlen]
    have hyield : yieldingGets i ((position::positions).map fun position => (1,position))=
        (yieldingGet i 1 position++[.returns i])++
          (yieldingGets i (positions.map fun position => (1,position)) : List (Act ι α)) := rfl
    have hblock : blockingGets i (position::positions)=
        (blockingGet i position++[.returns i])++
          (blockingGets i positions : List (Act ι α)) := rfl
    rw [hyield,hblock,perform_append,perform_append _ _ (blockingGets i positions),hhead,
      perform_blockingGet_returns hcall hlen]
    cases s.chan.queue[position]? with
    | none => rfl
    | some t =>
      refine ih hcall ?_
      change positions.length < len+1
      rw [List.length_cons] at hlt
      omega

/-- Completed `get(yield)` calls leave a unit. -/
theorem length_lt_of_perform_yieldingGets {s s' : State ι α} {i : ι}
    (hcall : mayCall (s.stack i)=true) (hpos : 0 < s.chan.size) {calls : List (ℕ×ℕ)}
    (h : perform s (yieldingGets i calls)=some s') : calls.length < s.chan.size := by
  induction calls generalizing s with
  | nil => exact hpos
  | cons call calls ih =>
    rw [yieldingGets,List.flatMap_cons,perform_append,perform_append,Option.bind_assoc] at h
    obtain ⟨u,hu,hrest⟩ := Option.bind_eq_some_iff.mp h
    have htwo := two_le_of_perform_yieldingGet hcall hpos hu
    obtain ⟨len,hlen⟩ : ∃ len,s.chan.size=len+2 := ⟨s.chan.size-2,by omega⟩
    rw [tests_of_perform_yieldingGet hcall hlen hu,perform_yieldingGet_one hcall hlen,
      perform_blockingGet hcall hlen,Option.map_eq_some_iff] at hu
    obtain ⟨t,-,rfl⟩ := hu
    rw [perform_returns,Option.bind_some] at hrest
    have hleft : (received s i t ⟨s.chan.queue.eraseIdx call.2,⟨len+1⟩⟩).chan.size=len+1 := rfl
    have hcall' : mayCall ((received s i t
        ⟨s.chan.queue.eraseIdx call.2,⟨len+1⟩⟩).stack i)=true := hcall
    have hlt := ih hcall' (by rw [hleft]; exact Nat.succ_pos len) hrest
    rw [hleft] at hlt
    rw [List.length_cons]
    omega

/-- A step moves its own thread only. -/
theorem next_stack_of_ne {s s' : State ι α} {a : Act ι α} {j : ι} (hj : j≠actor a)
    (h : next s a=some s') : s'.stack j=s.stack j := by
  obtain ⟨st,-,hstack⟩ := next_moves h
  rw [hstack,Function.update_of_ne hj]

/-- In the loop of `_get(yield)` a thread's only step is the test of the count. -/
theorem next_of_looping {s s' : State ι α} {a : Act ι α} {rest : List (Frame α)}
    (hs : s.stack (actor a)=.looping::rest) (h : next s a=some s') : a=.testCount (actor a) := by
  cases a with
  | testCount i => rfl
  | enqueue | notify | get | update | wait | poll | semWait | waitDequeue | handOver | returns
  | throws =>
    simp only [actor] at hs
    simp only [next,State.call,hs,mayCall,Bool.false_eq_true,if_false,ite_self,Option.map_none,
      reduceCtorEq] at h

/-- Without a notify the count does not grow. -/
theorem size_le_of_silent {s s' : State ι α} {a : Act ι α} (hok : Silent s a)
    (h : next s a=some s') : s'.chan.size ≤ s.chan.size := by
  cases next_effect h with
  | notify => exact False.elim hok
  | semWait i yields g rest chan hs hg hw =>
    have hsem := (semWait_eq_some hw).2
    change chan.sem.len ≤ s.chan.sem.len
    omega
  | waitDequeue i position t rest chan hs hd =>
    have hsem := (waitDequeue_eq_some hd).2
    change chan.sem.len ≤ s.chan.sem.len
    rw [hsem]
  | enqueue | stays | calls | turns | leaves | loopEnds | handOver => exact Nat.le_refl _

/-- A coroutine in its loop with no unit left stays there, whatever the others
do short of a notify. -/
theorem looping_of_silent {s u : State ι α} {i : ι} {rest : List (Frame α)}
    (hstack : s.stack i=.looping::rest) (hsize : s.chan.size=0) {later : List (Act ι α)}
    (h : Reaches next Silent s later u) : u.stack i=.looping::rest ∧ u.chan.size=0 := by
  induction h with
  | start => exact ⟨hstack,hsize⟩
  | @step _ s u a _ hok hn ih =>
    obtain ⟨hi,hz⟩ := ih
    have hle := size_le_of_silent hok hn
    refine ⟨?_,by omega⟩
    by_cases hactor : i=actor a
    · subst hactor
      rw [next_of_looping hi hn] at hn
      simp only [next,hi,hz,if_true,Option.some.injEq] at hn
      subst hn
      exact hi
    · rw [next_stack_of_ne hactor hn]
      exact hi

/-- A reachable channel with a pending tuple gives it to a blocking receive. -/
theorem exists_blockingGet [Fintype ι] {acts : List (Act ι α)} {s : State ι α}
    (h : Reaches next Unrestricted .start acts s) {i : ι} (hcall : mayCall (s.stack i)=true)
    (hpos : 0 < s.chan.size) :
    ∃ t chan,perform s (blockingGet i 0)=some (handing s i t chan) ∧
      perform s (blockingGet i 0++[.returns i])=some (received s i t chan) ∧
      chan.size+1=s.chan.size := by
  have hle := size_le_stored h
  obtain ⟨len,hlen⟩ : ∃ len,s.chan.size=len+1 := ⟨s.chan.size-1,by omega⟩
  obtain ⟨t,hget⟩ : ∃ t,s.chan.queue[0]?=some t := ⟨_,List.getElem?_eq_getElem (by omega)⟩
  refine ⟨t,⟨s.chan.queue.eraseIdx 0,⟨len⟩⟩,?_,?_,?_⟩
  · rw [perform_blockingGet hcall hlen,hget]
    rfl
  · rw [perform_blockingGet_returns hcall hlen,hget]
    rfl
  · exact hlen.symm

/-- As many blocking receives as units all complete. -/
theorem exists_blockingGets [Fintype ι] {acts : List (Act ι α)} {s : State ι α}
    (h : Reaches next Unrestricted .start acts s) {i : ι} (hcall : mayCall (s.stack i)=true)
    {n : ℕ} (hn : n ≤ s.chan.size) :
    ∃ s',perform s (blockingGets i (List.replicate n 0))=some s' := by
  induction n generalizing acts s with
  | zero => exact ⟨s,rfl⟩
  | succ n ih =>
    obtain ⟨t,chan,-,hreturns,hsize⟩ := exists_blockingGet h hcall (by omega)
    have hsplit : blockingGets i (List.replicate (n+1) 0)=
        (blockingGet i 0++[.returns i])++
          (blockingGets i (List.replicate n 0) : List (Act ι α)) := rfl
    rw [hsplit,perform_append,hreturns,Option.bind_some]
    refine ih (h.replay_append hreturns) hcall ?_
    change n ≤ chan.size
    omega

/-- The coroutine receive against the blocking one, from every reachable state
with a pending tuple. The blocking receive completes. The coroutine receive
reaches the same state for every choice of the queue exactly when the count at
its call is at least two; with one unit it stays in its loop whatever all
threads do, until one of them notifies. And `n` consecutive coroutine receives
agree with `n` blocking ones exactly when `n` is zero or below the count. -/
theorem get_yield_agrees_iff_two_pending [Fintype ι] {acts : List (Act ι α)} {s : State ι α}
    (h : Reaches next Unrestricted .start acts s) (i : ι) (hcall : mayCall (s.stack i)=true)
    (hpending : 0 < s.chan.size) :
    (∃ position s',perform s (blockingGet i position)=some s') ∧
    ((∀ position s',perform s (blockingGet i position)=some s' →
        ∃ tests,perform s (yieldingGet i tests position)=some s') ↔ 2 ≤ s.chan.size) ∧
    (¬2 ≤ s.chan.size → ∃ u,perform s [.get i true,.semWait i]=some u ∧
      ∀ later u',Reaches next Silent u later u' → u'.stack i=.looping::s.stack i) ∧
    ∀ n ≤ s.chan.size,
      ((∀ positions s',positions.length=n → perform s (blockingGets i positions)=some s' →
          ∃ calls,calls.map Prod.snd=positions ∧ perform s (yieldingGets i calls)=some s') ↔
        n=0 ∨ n < s.chan.size) := by
  have hget : ∃ position s',perform s (blockingGet i position)=some s' := by
    obtain ⟨t,chan,hhanding,-,-⟩ := exists_blockingGet h hcall hpending
    exact ⟨0,_,hhanding⟩
  refine ⟨hget,⟨fun hagree => ?_,fun htwo position s' hs' => ?_⟩,fun hone => ?_,fun n hn =>
    ⟨fun hagree => ?_,fun hlt positions s' hlength hs' => ?_⟩⟩
  · obtain ⟨position,s',hs'⟩ := hget
    obtain ⟨tests,htests⟩ := hagree position s' hs'
    exact two_le_of_perform_yieldingGet hcall hpending htests
  · obtain ⟨len,hlen⟩ : ∃ len,s.chan.size=len+2 := ⟨s.chan.size-2,by omega⟩
    exact ⟨1,by rw [perform_yieldingGet_one hcall hlen,hs']⟩
  · have hlen : s.chan.size=0+1 := by omega
    refine ⟨_,perform_get_semWait hcall hlen true,fun later u' hu' => ?_⟩
    refine (looping_of_silent ?_ rfl hu').1
    exact Function.update_self _ _ _
  · obtain ⟨s',hs'⟩ := exists_blockingGets h hcall hn
    obtain ⟨calls,hcalls,hperform⟩ := hagree _ s' List.length_replicate hs'
    have hlt := length_lt_of_perform_yieldingGets hcall hpending hperform
    have hlength : calls.length=n := by
      rw [←List.length_map Prod.snd,hcalls,List.length_replicate]
    omega
  · rcases hlt with rfl|hlt
    · rw [List.length_eq_zero_iff] at hlength
      subst hlength
      exact ⟨[],rfl,hs'⟩
    · refine ⟨positions.map fun position => (1,position),?_,?_⟩
      · rw [List.map_map]
        exact List.map_id' positions
      · rw [perform_yieldingGets hcall positions (by omega),hs']

/-- Two tuples are pending and a third is stored by a producer which has not
notified. -/
def twoPending : List (Act (Fin 2) ℕ) :=
  [.enqueue 0 7,.notify 0,.enqueue 0 8,.notify 0,.enqueue 1 9]

/-- With two pending the coroutine takes what the blocking receive takes. -/
theorem get_yield_agrees_two_pending :
    ∃ s : State (Fin 2) ℕ,Reaches next Unrestricted .start twoPending s ∧ s.chan.size=2 ∧
      ∀ position s',perform s (blockingGet 0 position)=some s' →
        ∃ tests,perform s (yieldingGet 0 tests position)=some s' := by
  obtain ⟨s,hs,hseen⟩ := reaches_of_replay next Unrestricted .start twoPending
    (fun s => (s.chan.size,mayCall (s.stack 0))) (2,true) (by decide)
  simp only [Prod.mk.injEq] at hseen
  have hagree := get_yield_agrees_iff_two_pending hs 0 hseen.2 (by omega)
  exact ⟨s,hs,hseen.1,hagree.2.1.mpr (by omega)⟩

/-- One tuple is sent and nobody receives. -/
def onePending : List (Act (Fin 2) ℕ) := [.enqueue 0 7,.notify 0]

/-- With one pending tuple `get()` hands it over and `get(yield)` never does,
after any number of its yields. -/
theorem one_pending_get_yield_differs :
    ¬∀ (acts : List (Act (Fin 2) ℕ)) (s : State (Fin 2) ℕ),
      Reaches next Unrestricted .start acts s → ∀ i,mayCall (s.stack i)=true →
        0 < s.chan.size → ∀ position s',perform s (blockingGet i position)=some s' →
          ∃ tests,perform s (yieldingGet i tests position)=some s' := by
  intro hclaim
  obtain ⟨s,hs,hseen⟩ := reaches_of_replay next Unrestricted .start onePending
    (fun s => (s.chan.size,mayCall (s.stack 1))) (1,true) (by decide)
  simp only [Prod.mk.injEq] at hseen
  obtain ⟨t,chan,hget,-,-⟩ := exists_blockingGet hs hseen.2 (by omega)
  obtain ⟨tests,htests⟩ := hclaim _ s hs 1 hseen.2 (by omega) 0 _ hget
  have htwo := two_le_of_perform_yieldingGet hseen.2 (by omega) htests
  omega

end FastEventSystem.FastYield
