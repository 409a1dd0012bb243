import FastEventSystem.FastYield

/-!
# Sends whose enqueue fails

The vendored queue reports by its result that it could not store a tuple.
`operator()` does not look at the result and notifies in either case, so a
failed send leaves the count one above what is stored. The surplus is the
number of failed sends, in every state of every interleaving, and no receive
ever takes it back: one that passes the semaphore on it finds nothing.
-/

namespace FastEventSystem.FastFailure

open CountingSemaphore FastChannel FastThreads FastAccounting FastYield GuardedRuns PartyTotals

variable {ι α : Type*}

/-- One step of a thread, when `enqueue` may fail. -/
inductive Act (ι α : Type*) where
  /-- A step in which no `enqueue` fails. -/
  | step (a : FastThreads.Act ι α)
  /-- Enter `operator()`; `enqueue` returns false and stores nothing. -/
  | enqueueFails (i : ι) (data : α)

/-- The step is a failed `enqueue`. -/
def Act.fails : Act ι α → Bool
  | .step _ => false
  | .enqueueFails _ _ => true

/-- The thread which takes a step. -/
def Act.actor : Act ι α → ι
  | .step a => FastThreads.actor a
  | .enqueueFails i _ => i

/-- Number of failed calls of `enqueue`. -/
def failures (acts : List (Act ι α)) : ℕ := acts.countP Act.fails

/-- No call of `enqueue` failed. -/
def NoneFailed (acts : List (Act ι α)) : Prop := ∀ a∈acts,a.fails=false

/-- No send stands between `enqueue` and `notify`, and no receive between
`_sem.wait()` and `wait_dequeue`; so it is when no call is in progress. -/
def Quiescent [Fintype ι] (s : State ι α) : Prop := producers s=0 ∧ consumers s=0

variable [DecidableEq ι]

/-- Perform one step. -/
def next (s : State ι α) : Act ι α → Option (State ι α)
  | .step a => FastThreads.next s a
  -- Nothing looks at the result of `enqueue`: the send goes on to its notify.
  | .enqueueFails i _ => s.call i .notifying

omit [DecidableEq ι] in
/-- A state with no call in progress is quiescent. -/
theorem quiescent_of_idle [Fintype ι] {s : State ι α} (h : ∀ i,s.stack i=[]) : Quiescent s := by
  constructor
  · refine total_eq_zero _ _ fun i => ?_
    rw [h i]
    rfl
  · refine total_eq_zero _ _ fun i => ?_
    rw [h i]
    rfl

omit [DecidableEq ι] in
/-- No failures are counted exactly when none happened. -/
theorem failures_eq_zero {acts : List (Act ι α)} : failures acts=0 ↔ NoneFailed acts := by
  rw [failures,List.countP_eq_zero]
  exact forall₂_congr fun a _ => by rw [Bool.not_eq_true]

/-- Stored tuples and failed sends together match the count and the calls
between the two counters. -/
theorem counted_of_reaches [Fintype ι] {acts : List (Act ι α)} {s : State ι α}
    (h : Reaches next Unrestricted .start acts s) :
    s.chan.queue.length+failures acts=s.chan.sem.len+producers s+consumers s := by
  induction h with
  | start => exact accounted_start.matched
  | @step acts s s' a _ _ hn ih =>
    have hcount : failures (acts++[a])=failures acts+failures [a] := List.countP_append
    rw [hcount]
    cases a with
    | step a => exact surplus_step ih hn
    | enqueueFails i data =>
      simp only [next,State.call] at hn
      split at hn <;> cases hn
      have hc := counts_push s i .notifying
      simp only [Frame.producing,Frame.consuming] at hc
      change s.chan.queue.length+(failures acts+1)=s.chan.sem.len+
        producers (s.goto i (.notifying::s.stack i))+consumers (s.goto i (.notifying::s.stack i))
      omega

/-- Steps without a failed `enqueue` are performed as in the machine of the threads. -/
theorem replay_steps (s : State ι α) (acts : List (FastThreads.Act ι α)) :
    replay next Unrestricted s (acts.map .step)=perform s acts := by
  induction acts generalizing s with
  | nil => rfl
  | cons a acts ih =>
    have hok : Unrestricted s (Act.step a) := trivial
    rw [List.map_cons,replay,if_pos hok,perform_cons]
    exact congrArg _ (funext fun u => ih u)

/-- With more units than tuples, one thread's receives dequeue all that is
stored, and its next one passes the semaphore with nothing left. -/
theorem perform_starving {s : State ι α} {i : ι} (hcall : mayCall (s.stack i)=true)
    (hlt : s.chan.queue.length < s.chan.size) :
    ∃ u,perform s (blockingGets i (List.replicate s.chan.queue.length 0)++
        [.get i false,.semWait i])=some u ∧ u.chan.queue=[] ∧ u.stack i=.passed::s.stack i := by
  obtain ⟨len,hlen⟩ : ∃ len,s.chan.size=len+1 := ⟨s.chan.size-1,by omega⟩
  induction hq : s.chan.queue generalizing s len with
  | nil =>
    refine ⟨pastSem s i .passed len,?_,hq,Function.update_self _ _ _⟩
    exact perform_get_semWait hcall hlen false
  | cons t rest ih =>
    rw [hq,List.length_cons] at hlt
    have hone : perform s (blockingGet i 0++[.returns i])=some (received s i t ⟨rest,⟨len⟩⟩) := by
      rw [perform_blockingGet_returns hcall hlen,hq]
      rfl
    have hsplit : blockingGets i (List.replicate (t::rest).length 0)=
        (blockingGet i 0++[.returns i])++
          (blockingGets i (List.replicate rest.length 0) : List (FastThreads.Act ι α)) := rfl
    obtain ⟨len',hlen'⟩ : ∃ len',len=len'+1 := ⟨len-1,by omega⟩
    obtain ⟨u,hu,hempty,htop⟩ := ih (s := received s i t ⟨rest,⟨len⟩⟩) hcall
      (by change rest.length < len; omega) len' hlen' rfl
    refine ⟨u,?_,hempty,htop⟩
    rw [hsplit,List.append_assoc,perform_append,hone,Option.bind_some]
    exact hu

/-- A failed send, run without interruption, raises the count and stores nothing. -/
theorem failed_send_raises {s u : State ι α} {i : ι} {data : α}
    (h : next s (.enqueueFails i data)=some u) :
    u.chan=s.chan ∧ ∃ v,next u (.step (.notify i))=some v ∧ v.chan.queue=s.chan.queue ∧
      v.chan.size=s.chan.size+1 ∧ v.chan.empty=false := by
  simp only [next,State.call] at h
  split at h <;> cases h
  have htop : (s.goto i (.notifying::s.stack i)).stack i=.notifying::s.stack i :=
    Function.update_self _ _ _
  refine ⟨rfl,{(s.goto i (.notifying::s.stack i)).goto i (s.stack i) with chan := s.chan.notify},
    ?_,rfl,rfl,rfl⟩
  simp only [next,FastThreads.next,htop]
  rfl

/-- A failed `enqueue` leaves the channel unchanged, along one run: in the
sends themselves and in what every state on the way shows. -/
structure FailuresHarmless [Fintype ι] (acts : List (Act ι α)) : Prop where
  /-- Neither step of a send whose `enqueue` failed changes `size()` or `empty()`. -/
  sends : ∀ before i data between later u u' v v',
    acts=before++.enqueueFails i data::between++.step (.notify i)::later →
    (∀ a∈between,a.actor≠i) →
    Reaches next Unrestricted .start before u → next u (.enqueueFails i data)=some u' →
    Reaches next Unrestricted .start (before++.enqueueFails i data::between) v →
    next v (.step (.notify i))=some v' →
      u'.chan.size=u.chan.size ∧ u'.chan.empty=u.chan.empty ∧
        v'.chan.size=v.chan.size ∧ v'.chan.empty=v.chan.empty
  /-- In a quiescent state the count is the number of stored tuples. -/
  settled : ∀ before later u,acts=before++later → Reaches next Unrestricted .start before u →
    Quiescent u → u.chan.size=u.chan.queue.length
  /-- Every receive past the semaphore has a tuple of its own to dequeue. -/
  found : ∀ before later u,acts=before++later → Reaches next Unrestricted .start before u →
    consumers u ≤ u.chan.queue.length

/-- The counters of a run without failures match what is stored. -/
theorem matched_of_noneFailed [Fintype ι] {acts : List (Act ι α)} {s : State ι α}
    (h : Reaches next Unrestricted .start acts s) (hnone : NoneFailed acts) :
    s.chan.queue.length=s.chan.size+producers s+consumers s := by
  have hcount := counted_of_reaches h
  rw [failures_eq_zero.mpr hnone,Nat.add_zero] at hcount
  exact hcount

/-- Without failures nothing of the above can go wrong. -/
theorem failuresHarmless_of_noneFailed [Fintype ι] {acts : List (Act ι α)}
    (hnone : NoneFailed acts) : FailuresHarmless acts where
  sends := by
    intro before i data between later _ _ _ _ hacts
    have hfails := hnone (.enqueueFails i data) (by
      rw [hacts,List.append_assoc]
      exact List.mem_append_right before List.mem_cons_self)
    cases hfails
  settled := by
    intro before later u hacts h hquiet
    have hbefore : NoneFailed before :=
      fun a ha => hnone a (hacts ▸ List.mem_append_left later ha)
    have hcount := matched_of_noneFailed h hbefore
    rw [hquiet.1,hquiet.2] at hcount
    exact hcount.symm
  found := by
    intro before later u hacts h
    have hbefore : NoneFailed before :=
      fun a ha => hnone a (hacts ▸ List.mem_append_left later ha)
    have hcount := matched_of_noneFailed h hbefore
    omega

/-- Sends with a failing queue. A run in which no `enqueue` fails meets all that
is asked of failures, in every state on its way. In every run with failures a
failed send raises the count; at every quiescent end the count exceeds the
stored tuples by the number of failed sends, so what is asked fails; and from
there on one thread's receives, with no further failure, bring it past the
semaphore where no tuple is left and no dequeue can be made. -/
theorem failures_harmless_iff_none [Fintype ι] {acts : List (Act ι α)} {s : State ι α}
    (h : Reaches next Unrestricted .start acts s) :
    (NoneFailed acts → FailuresHarmless acts) ∧
    (∀ i data u,next s (.enqueueFails i data)=some u →
      u.chan=s.chan ∧ ∃ v,next u (.step (.notify i))=some v ∧ v.chan.queue=s.chan.queue ∧
        v.chan.size=s.chan.size+1 ∧ v.chan.empty=false) ∧
    (Quiescent s → s.chan.size=s.chan.queue.length+failures acts ∧
      (FailuresHarmless acts ↔ NoneFailed acts) ∧
      (¬NoneFailed acts → ∀ i,mayCall (s.stack i)=true → ∃ more u,NoneFailed more ∧
        Reaches next Unrestricted .start (acts++more) u ∧ u.chan.queue=[] ∧
        u.stack i=.passed::s.stack i ∧
        ∀ position,next u (.step (.waitDequeue i position))=none)) := by
  refine ⟨failuresHarmless_of_noneFailed,fun i data u hu => failed_send_raises hu,
    fun hquiet => ?_⟩
  have hsize : s.chan.size=s.chan.queue.length+failures acts := by
    have hcount := counted_of_reaches h
    rw [hquiet.1,hquiet.2] at hcount
    exact hcount.symm
  refine ⟨hsize,⟨fun hharmless => ?_,failuresHarmless_of_noneFailed⟩,fun hsome i hcall => ?_⟩
  · have hsettled := hharmless.settled acts [] s (List.append_nil acts).symm h hquiet
    exact failures_eq_zero.mp (by omega)
  · have hpos : failures acts≠0 := fun hzero => hsome (failures_eq_zero.mp hzero)
    obtain ⟨u,hu,hempty,htop⟩ := perform_starving hcall (by omega)
    refine ⟨_,u,?_,h.replay_append ((replay_steps s _).trans hu),hempty,htop,fun position => ?_⟩
    · intro a ha
      obtain ⟨b,-,rfl⟩ := List.mem_map.mp ha
      rfl
    · simp only [next,FastThreads.next,htop,AsyncFast.waitDequeue,hempty,List.getElem?_nil,
        Option.map_none]

/-- One send is stored, a second one fails, and both notify. -/
def failingSends : List (Act (Fin 2) ℕ) :=
  [.step (.enqueue 0 10),.enqueueFails 1 20,.step (.notify 1),.step (.notify 0)]

/-- After the two sends the count is two over one stored tuple, and a receiver
comes to stand past the semaphore with nothing to dequeue. -/
theorem failures_harmless_iff_none_two_sends :
    ∃ s : State (Fin 2) ℕ,Reaches next Unrestricted .start failingSends s ∧
      s.chan.queue=[⟨0,10⟩] ∧ s.chan.size=s.chan.queue.length+failures failingSends ∧
      ¬FailuresHarmless failingSends ∧
      ∃ more u,Reaches next Unrestricted .start (failingSends++more) u ∧ u.chan.queue=[] ∧
        u.stack 0=[.passed] := by
  obtain ⟨s,hs,hseen⟩ := reaches_of_replay next Unrestricted .start failingSends
    (fun s => (s.chan.queue,s.stack 0,s.stack 1)) ([⟨0,10⟩],[],[]) (by decide)
  simp only [Prod.mk.injEq] at hseen
  have hidle : ∀ i,s.stack i=[] := Fin.forall_fin_two.mpr hseen.2
  have hsome : ¬NoneFailed failingSends := by
    intro hnone
    cases hnone (.enqueueFails 1 20) (.tail _ (.head _))
  obtain ⟨hsize,hiff,hstarve⟩ := (failures_harmless_iff_none hs).2.2 (quiescent_of_idle hidle)
  obtain ⟨more,u,-,hu,hempty,htop,-⟩ := hstarve hsome 0 (by rw [hidle 0]; rfl)
  rw [hidle 0] at htop
  exact ⟨s,hs,hseen.1,hsize,fun h => hsome (hiff.mp h),more,u,hu,hempty,htop⟩

/-- A fresh channel whose only send fails, and a receive. -/
def failedSend : List (Act (Fin 1) ℕ) :=
  [.enqueueFails 0 7,.step (.notify 0),.step (.get 0 false),.step (.semWait 0)]

/-- The failed send makes the empty channel show size one, and the receive
which believes it passes the semaphore and finds nothing to dequeue. -/
theorem failed_send_hangs_receive :
    ∃ s u : State (Fin 1) ℕ,Reaches next Unrestricted .start (failedSend.take 2) s ∧
      s.chan.queue=[] ∧ s.chan.size=1 ∧ s.chan.empty=false ∧ s.stack 0=[] ∧
      ¬FailuresHarmless (failedSend.take 2) ∧
      Reaches next Unrestricted .start failedSend u ∧ u.stack 0=[.passed] ∧ u.chan.queue=[] := by
  obtain ⟨s,hs,hseen⟩ := reaches_of_replay next Unrestricted .start (failedSend.take 2)
    (fun s => (s.chan.queue,s.chan.size,s.chan.empty,s.stack 0)) ([],1,false,[]) (by decide)
  obtain ⟨u,hu,hseen'⟩ := reaches_of_replay next Unrestricted .start failedSend
    (fun s => (s.stack 0,s.chan.queue)) ([.passed],[]) (by decide)
  simp only [Prod.mk.injEq] at hseen hseen'
  refine ⟨s,u,hs,hseen.1,hseen.2.1,hseen.2.2.1,hseen.2.2.2,fun h => ?_,hu,hseen'⟩
  have hidle : ∀ i,s.stack i=[] := Fin.forall_fin_one.mpr hseen.2.2.2
  have hsettled := h.settled (failedSend.take 2) [] s rfl hs (quiescent_of_idle hidle)
  rw [hseen.1,hseen.2.1] at hsettled
  cases hsettled

end FastEventSystem.FastFailure
