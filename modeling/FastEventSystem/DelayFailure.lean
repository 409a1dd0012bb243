import FastEventSystem.DelayDelivery

/-!
# A throwing subscriber of a delayed channel

The semaphore is taken before the dispatch and the entry is popped after it,
so an exception leaving any subscriber skips the pop. The vector then holds
one entry more than the semaphore counts, for the rest of the run. After a
calm history that surplus entry is the emptied one.
-/

namespace FastEventSystem.DelayFailure

open MessageOrder CountingSemaphore DelayChannel DispatchLayers DelayCalls DelayDelivery
  GuardedRuns

variable {ι α : Type*}

/-- The channel a caller expects once the exception has left: the count is the
number of entries, all entries have their arguments, and the pending messages
are those before the call, possibly without the one being dispatched. -/
def Consistent (before : Multiset (Message α)) (t : Message α) (c : AsyncDelay α) : Prop :=
  c.size=c.queue.length ∧ (∀ m∈c.queue,m.Intact) ∧
    ((c.queue : Multiset (Message α))=before ∨ (c.queue : Multiset (Message α))+{t}=before)

variable [DecidableEq ι]

/-- A throw ends the innermost call, is counted and keeps the vector. -/
theorem handlerThrows_eq_some {subscribers : ℕ} {s s' : State ι α} {i : ι}
    (h : next subscribers s (.handlerThrows i)=some s') :
    ∃ t k rest,s.frame i=.dispatching t k ∧ s.running=i::rest ∧
      s'={s.goto i .idle with running := rest,thrown := s.thrown+1} := by
  simp only [next] at h
  split at h
  · rename_i t k j rest hf hr
    split at h <;> cases h
    rename_i hc
    exact ⟨t,k,rest,hf,hc.1 ▸ hr,rfl⟩
  · cases h

/-- Whatever happened before and whichever subscriber throws, the count is
below the number of entries afterwards; so the channel is consistent with no
earlier contents. -/
theorem throw_never_consistent [Fintype ι] (subscribers : ℕ) {acts : List (Act ι α)}
    {s s' : State ι α} {i : ι} (h : Reaches (next subscribers) Unrestricted .start acts s)
    (ht : next subscribers s (.handlerThrows i)=some s') :
    s'.chan.size < s'.chan.queue.length ∧ ∀ before t,¬Consistent before t s'.chan := by
  have hb : Matched s := h.invariant matched_start fun hb _ hn => matched_step hb hn
  have hb' : Matched s' := matched_step hb ht
  have hthrown : s'.thrown=s.thrown+1 := by
    obtain ⟨t,k,rest,-,-,rfl⟩ := handlerThrows_eq_some ht
    rfl
  have hlt : s'.chan.size < s'.chan.queue.length := by
    unfold Matched at hb'
    have hsize : s'.chan.size=s'.chan.sem.len := rfl
    omega
  refine ⟨hlt,fun before t hc => ?_⟩
  have heq := hc.1
  omega

/-- After a calm history the emptied entry of the message being dispatched
stays in the vector beside those of the calls still running, whose pops it now
stands in the way of. -/
theorem throw_leaves_emptied {subscribers : ℕ} {acts : List (Act ι α)}
    {s s' : State ι α} {i : ι} (h : Reaches (next subscribers) Calm .start acts s)
    (ht : next subscribers s (.handlerThrows i)=some s') :
    ∃ t k,s.frame i=.dispatching t k ∧
      (s'.chan.queue.filter fun m => ¬m.Intact).Perm
        (t.movedFrom::s'.dispatching.map Message.movedFrom) := by
  have ho := orderly_of_calm h
  obtain ⟨t,k,rest,hf,hrun,rfl⟩ := handlerThrows_eq_some ht
  have hunique := ho.unique
  rw [hrun,List.nodup_cons] at hunique
  have hemptied := ho.layered.emptied
  rw [dispatching_cons hf hrun,List.map_cons] at hemptied
  refine ⟨t,k,hf,?_⟩
  change (s.chan.queue.filter _).Perm (t.movedFrom::List.map _ (List.filterMap
    (fun j => (Function.update s.frame i Frame.idle j).message) rest))
  rw [filterMap_message_update fun hmem => False.elim (hunique.1 hmem)]
  exact hemptied

/-- Two messages are pending and the second of three subscribers is about to
throw on the first message. -/
def failingRun : List (Act (Fin 2) ℕ) :=
  [.operatorCall 0 5 10 (insertionSort ℕ),.operatorCall 0 9 30 (insertionSort ℕ),
    .get 0,.semWait 0,.readClock 0 5,.handlerReturns 0]

/-- A later receive whose three subscribers return. -/
def strandedTail : List (Act (Fin 2) ℕ) :=
  [.get 1,.semWait 1,.readClock 1 20,.handlerReturns 1,.handlerReturns 1,.handlerReturns 1,
    .popBack 1]

/-- The second subscriber's exception leaves two entries under a count of one. -/
theorem throw_never_consistent_second :
    ∃ s s' : State (Fin 2) ℕ,Reaches (next 3) Unrestricted .start failingRun s ∧
      next 3 s (.handlerThrows 0)=some s' ∧ s'.chan.size < s'.chan.queue.length ∧
      ∀ before t,¬Consistent before t s'.chan := by
  obtain ⟨s,hs,hseen⟩ := reaches_of_replay (next 3) Unrestricted .start failingRun
    (fun s => (next 3 s (.handlerThrows 0)).isSome) true (by decide)
  obtain ⟨s',ht⟩ := Option.isSome_iff_exists.mp hseen
  exact ⟨s,s',hs,ht,throw_never_consistent 3 hs ht⟩

/-- Right after the exception the count is one, two entries remain and the one
at the back is emptied. The next receive dispatches that entry, and the other
message stays in the vector with no count left to receive it. -/
theorem throw_strands_message :
    ∃ s s' : State (Fin 2) ℕ,
      Reaches (next 3) Unrestricted .start (failingRun++[.handlerThrows 0]) s ∧
      s.chan.size=1 ∧ s.chan.queue=[⟨0,5,none⟩,⟨0,9,some 30⟩] ∧
      ¬Consistent {⟨0,9,some 30⟩,⟨0,5,some 10⟩} ⟨0,5,some 10⟩ s.chan ∧
      Reaches (next 3) Unrestricted .start (failingRun++[.handlerThrows 0]++strandedTail) s' ∧
      s'.handed.map Handed.message=[⟨0,5,none⟩,⟨0,5,some 10⟩] ∧
      s'.chan.queue=[⟨0,9,some 30⟩] ∧ s'.chan.size=0 := by
  obtain ⟨s,hs,hseen⟩ := reaches_of_replay (next 3) Unrestricted .start
    (failingRun++[.handlerThrows 0]) (fun s => (s.chan.size,s.chan.queue))
    (1,[⟨0,5,none⟩,⟨0,9,some 30⟩]) (by decide)
  obtain ⟨s',hs',hseen'⟩ := reaches_of_replay (next 3) Unrestricted .start
    (failingRun++[.handlerThrows 0]++strandedTail)
    (fun s => (s.handed.map Handed.message,s.chan.queue,s.chan.size))
    ([⟨0,5,none⟩,⟨0,5,some 10⟩],[⟨0,9,some 30⟩],0) (by decide)
  simp only [Prod.mk.injEq] at hseen hseen'
  refine ⟨s,s',hs,hseen.1,hseen.2,fun hc => ?_,hs',hseen'.1,hseen'.2.1,hseen'.2.2⟩
  have heq := hc.1
  rw [hseen.1,hseen.2] at heq
  contradiction

end FastEventSystem.DelayFailure
