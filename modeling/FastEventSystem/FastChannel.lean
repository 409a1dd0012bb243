import FastEventSystem.SemaphoreThreads
import Mathlib.Data.List.Perm.Basic

/-!
# The fast channel and its single operations

The vendored `BlockingConcurrentQueue` is taken as a linearizable multiset:
`enqueue` stores a tuple, `wait_dequeue` needs a stored tuple and takes one of
them, chosen by the queue. The stored tuples are listed in the order in which
they were enqueued, and a dequeue names the position it takes, so a first-in
first-out queue is the case of position zero. Every tuple carries the number
of the send which made it; that number is a history and no operation reads it.
-/

namespace FastEventSystem.FastChannel

open CountingSemaphore

/-- The arguments of one send. -/
structure Tuple (α : Type*) where
  /-- Number of the send. -/
  ticket : ℕ
  /-- The arguments themselves. -/
  data : α
  deriving DecidableEq,Repr

/-- The fields of an `async_fast` which its operations change. -/
structure AsyncFast (α : Type*) where
  /-- The stored tuples of `_queue`, oldest first. -/
  queue : List (Tuple α)
  /-- The semaphore `_sem`. -/
  sem : Semaphore

variable {α : Type*}

/-- A freshly constructed channel. -/
def AsyncFast.fresh : AsyncFast α := ⟨[],⟨0⟩⟩

/-- `_queue.enqueue`, the first half of `operator()`. -/
def AsyncFast.enqueue (c : AsyncFast α) (t : Tuple α) : AsyncFast α :=
  {c with queue := c.queue++[t]}

/-- `_sem.notify`, the second half of `operator()`. -/
def AsyncFast.notify (c : AsyncFast α) : AsyncFast α := {c with sem := c.sem.notify}

/-- Emptiness is decided by the semaphore alone. -/
def AsyncFast.empty (c : AsyncFast α) : Bool := decide (c.sem.size ≤ 0)

/-- The count of the semaphore. -/
def AsyncFast.size (c : AsyncFast α) : ℕ := c.sem.size

/-- Pass `_sem.wait()` at the start of `_get`. -/
def AsyncFast.semWait (c : AsyncFast α) : Option (AsyncFast α) :=
  c.sem.wait.map fun sem => {c with sem := sem}

/-- `_queue.wait_dequeue`, taking the tuple stored at a position. -/
def AsyncFast.waitDequeue (c : AsyncFast α) (position : ℕ) : Option (Tuple α×AsyncFast α) :=
  c.queue[position]?.map fun t => (t,{c with queue := c.queue.eraseIdx position})

/-- Passing the semaphore lowers the count and touches nothing else. -/
theorem semWait_eq_some {c c' : AsyncFast α} (h : c.semWait=some c') :
    c'.queue=c.queue ∧ c.sem.len=c'.sem.len+1 := by
  rw [AsyncFast.semWait,Option.map_eq_some_iff] at h
  obtain ⟨sem,hw,rfl⟩ := h
  exact ⟨rfl,Semaphore.wait_eq_some.mp hw⟩

/-- A dequeue takes one stored tuple and leaves the others. -/
theorem waitDequeue_eq_some {c c' : AsyncFast α} {position : ℕ} {t : Tuple α}
    (h : c.waitDequeue position=some (t,c')) : c.queue.Perm (t::c'.queue) ∧ c'.sem=c.sem := by
  rw [AsyncFast.waitDequeue,Option.map_eq_some_iff] at h
  obtain ⟨u,hu,he⟩ := h
  cases he
  obtain ⟨hlt,rfl⟩ := List.getElem?_eq_some_iff.mp hu
  exact ⟨(List.getElem_cons_eraseIdx_perm hlt).symm,rfl⟩

/-- With a stored tuple a dequeue does not block. -/
theorem waitDequeue_of_nonempty {c : AsyncFast α} (h : c.queue≠[]) :
    ∃ t c',c.waitDequeue 0=some (t,c') := by
  cases hq : c.queue with
  | nil => contradiction
  | cons t rest =>
    refine ⟨t,{c with queue := rest},?_⟩
    simp only [AsyncFast.waitDequeue,hq,List.getElem?_cons_zero,Option.map_some,
      List.eraseIdx_cons_zero]

end FastEventSystem.FastChannel
