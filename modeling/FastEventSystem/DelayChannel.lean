import FastEventSystem.MessageOrder
import FastEventSystem.SemaphoreThreads

/-!
# The delayed channel and its single operations

The vector `_queue` is kept back first. `operator()` appends, sorts when there
is something to sort, and notifies. Receiving is cut at the points where
another caller may run: passing the semaphore, reading the clock against the
back entry, running the subscribers on the moved-out message, and popping.
Operations which the source performs on an empty vector are refused here.
-/

namespace FastEventSystem.DelayChannel

open SortedVector MessageOrder CountingSemaphore

/-- The fields of an `async_delay` which its operations change. -/
structure AsyncDelay (α : Type*) where
  /-- The vector `_queue`, its `back()` first. -/
  queue : List (Message α)
  /-- The semaphore `_sem`. -/
  sem : Semaphore

variable {α : Type*}

/-- A freshly constructed channel. -/
def AsyncDelay.fresh : AsyncDelay α := ⟨[],⟨0⟩⟩

/-- Send one message at the given priority and point in time. -/
def AsyncDelay.operatorCall (c : AsyncDelay α) (priority delayPoint : ℤ) (data : α)
    (std : StdSort α) : AsyncDelay α :=
  let queue := ⟨priority,delayPoint,some data⟩::c.queue
  ⟨if queue.length > 1 then std.sort queue else queue,c.sem.notify⟩

/-- Emptiness is decided by the semaphore alone. -/
def AsyncDelay.empty (c : AsyncDelay α) : Bool := decide (c.sem.size ≤ 0)

/-- The count of the semaphore. -/
def AsyncDelay.size (c : AsyncDelay α) : ℕ := c.sem.size

/-- Pass `_sem.wait()` at the start of `_get`. -/
def AsyncDelay.semWait (c : AsyncDelay α) : Option (AsyncDelay α) :=
  c.sem.wait.map fun sem => {c with sem := sem}

/-- `auto t = std::move(_queue.back())`, leaving the emptied entry in place. -/
def AsyncDelay.moveBack (c : AsyncDelay α) : Option (Message α×AsyncDelay α) :=
  match c.queue with
  | [] => none
  | t::rest => some (t,{c with queue := t.movedFrom::rest})

/-- `_queue.pop_back()` together with the entry it destroys. -/
def AsyncDelay.popBack (c : AsyncDelay α) : Option (Message α×AsyncDelay α) :=
  match c.queue with
  | [] => none
  | b::rest => some (b,{c with queue := rest})

/-- Sending rearranges the old entries and the new one, and nothing else. -/
theorem operatorCall_perm (c : AsyncDelay α) (priority delayPoint : ℤ) (data : α)
    (std : StdSort α) :
    (c.operatorCall priority delayPoint data std).queue.Perm
      (⟨priority,delayPoint,some data⟩::c.queue) := by
  unfold AsyncDelay.operatorCall
  dsimp only
  split
  · exact std.perm _
  · exact List.Perm.refl _

/-- After a send the vector is sorted, whatever it was before. -/
theorem operatorCall_sorted (c : AsyncDelay α) (priority delayPoint : ℤ) (data : α)
    (std : StdSort α) :
    Sorted messageComp (c.operatorCall priority delayPoint data std).queue := by
  unfold AsyncDelay.operatorCall
  dsimp only
  split
  · exact std.sorted _
  · rename_i h
    have hnil : c.queue=[] := by
      rw [List.length_cons] at h
      exact List.length_eq_zero_iff.mp (by omega)
    rw [hnil]
    exact List.pairwise_singleton _ _

/-- A send raises the count by one. -/
theorem operatorCall_sem (c : AsyncDelay α) (priority delayPoint : ℤ) (data : α)
    (std : StdSort α) :
    (c.operatorCall priority delayPoint data std).sem.len=c.sem.len+1 := rfl

/-- A send adds one entry. -/
theorem operatorCall_length (c : AsyncDelay α) (priority delayPoint : ℤ) (data : α)
    (std : StdSort α) :
    (c.operatorCall priority delayPoint data std).queue.length=c.queue.length+1 := by
  rw [(operatorCall_perm c priority delayPoint data std).length_eq,List.length_cons]

/-- Passing the semaphore lowers the count and touches nothing else. -/
theorem semWait_eq_some {c c' : AsyncDelay α} (h : c.semWait=some c') :
    c'.queue=c.queue ∧ c.sem.len=c'.sem.len+1 := by
  rw [AsyncDelay.semWait,Option.map_eq_some_iff] at h
  obtain ⟨sem,hw,rfl⟩ := h
  exact ⟨rfl,Semaphore.wait_eq_some.mp hw⟩

/-- Moving out needs a back entry, which stays behind emptied. -/
theorem moveBack_eq_some {c c' : AsyncDelay α} {t : Message α} (h : c.moveBack=some (t,c')) :
    ∃ rest,c.queue=t::rest ∧ c'.queue=t.movedFrom::rest ∧ c'.sem=c.sem := by
  unfold AsyncDelay.moveBack at h
  split at h
  · cases h
  · rename_i b rest hq
    cases h
    exact ⟨rest,hq,rfl,rfl⟩

/-- Popping needs a back entry and removes exactly that one. -/
theorem popBack_eq_some {c c' : AsyncDelay α} {b : Message α} (h : c.popBack=some (b,c')) :
    c.queue=b::c'.queue ∧ c'.sem=c.sem := by
  unfold AsyncDelay.popBack at h
  split at h
  · cases h
  · rename_i b' rest hq
    cases h
    exact ⟨hq,rfl⟩

/-- A new message strictly more urgent than every pending one goes to the
back under every allowed sort. -/
theorem operatorCall_overtakes {c : AsyncDelay α} {priority delayPoint : ℤ} {data : α}
    (std : StdSort α)
    (hnew : ∀ m∈c.queue,messageComp m ⟨priority,delayPoint,some data⟩=true) :
    ∃ rest,(c.operatorCall priority delayPoint data std).queue=
        ⟨priority,delayPoint,some data⟩::rest ∧ rest.Perm c.queue :=
  back_of_strict (messageComp_self _) hnew
    (operatorCall_perm c priority delayPoint data std)
    (operatorCall_sorted c priority delayPoint data std)

end FastEventSystem.DelayChannel
