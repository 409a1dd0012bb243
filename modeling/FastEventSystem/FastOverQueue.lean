import FastEventSystem.BlockingSupply
import FastEventSystem.FastFailure

/-!
# The fast channel over its real queue

Everything said about fast channels takes `_queue` as a store whose `enqueue` and
`wait_dequeue` happen at once. Here the channel runs over the blocking queue
itself: `operator()` goes through `enqueue` of the queue, step by step, before it
notifies `_sem`, and `_get` goes through `wait_dequeue` after it has passed `_sem`.
All steps of all threads interleave.

The channel with the plain store can do whatever this one does: a tuple is stored
at the moment its sub-queue publishes it, and taken at the moment it is moved
out.
-/

namespace FastEventSystem.FastOverQueue

open CircularWords CountingSemaphore FastChannel FastThreads GuardedRuns PartyTotals

/-- A channel, its queue, and the threads. The store of the channel itself stays
empty, and so do the numbers of its sends. -/
structure State (ι α : Type*) where
  /-- The semaphore `_sem`, the calls of all threads and the histories. -/
  fast : FastThreads.State ι α
  /-- The field `_queue`. -/
  queue : BlockingQueue.State ι α
  /-- The tuple a thread is enqueuing and has not published yet. -/
  storing : ι → Option α
  /-- History: how many calls of `enqueue` returned false. -/
  failed : ℕ

variable {ι α : Type*}

/-- A new channel. -/
def State.start : State ι α := ⟨.start,.start,fun _ => none,0⟩

/-- One step of a thread. -/
inductive Act (ι α : Type*) where
  /-- Enter `operator()` and `_queue.enqueue`. -/
  | send (i : ι) (data : α)
  /-- Enter `_queue.wait_dequeue`. -/
  | dequeue (i : ι)
  /-- A step inside the queue. -/
  | queue (a : BlockingQueue.Act ι α)
  /-- A step outside it. -/
  | fast (a : FastThreads.Act ι α)

/-- Steps of the channel which do not touch its queue. -/
def outside : FastThreads.Act ι α → Bool
  | .enqueue _ _ | .waitDequeue _ _ => false
  | _ => true

/-- Steps of the queue which no call from the channel begins with, and which do
not end one. -/
def between : BlockingQueue.Act ι α → Bool
  | .signal _ | .ask _ | .sema _ _ | .look _ _ | .size _ _ _ | .choose _ | .advance _ => true
  | _ => false

variable [DecidableEq ι]

/-- A step of `enqueue` with one tuple: get a block, or construct the tuple. -/
def storesOnce [DecidableEq α] (data : α) (u : SubqueueClaims.State ι α) :
    SubqueueClaims.Act ι α → Bool
  | .reserve _ => true
  | .construct x => decide (x=data ∧ u.written.length=u.tail)
  | _ => false

/-- The tuple is published: from here on it is in the channel. -/
def State.published (s : State ι α) (i : ι) (data : α) (q : BlockingQueue.State ι α) : State ι α :=
  {s with
    fast := {s.fast.goto i (.notifying::s.fast.stack i) with sent := ⟨0,data⟩::s.fast.sent}
    queue := q
    storing := Function.update s.storing i none}

/-- `enqueue` returned false; `operator()` goes on to notify. -/
def State.unstored (s : State ι α) (i : ι) (q : BlockingQueue.State ι α) : State ι α :=
  {s with
    fast := s.fast.goto i (.notifying::s.fast.stack i)
    queue := q
    storing := Function.update s.storing i none
    failed := s.failed+1}

/-- `wait_dequeue` has moved a tuple out. -/
def State.taken (s : State ι α) (i : ι) (rest : List (Frame α)) (data : α)
    (q : BlockingQueue.State ι α) : State ι α :=
  {s with
    fast := {s.fast.goto i (.taken ⟨0,data⟩::rest) with
      taken := ⟨i,rest.length,⟨0,data⟩⟩::s.fast.taken}
    queue := q}

/-- A step inside a sub-queue. When it ends `wait_dequeue`, the tuple moved out
last is what the call returns. -/
def State.dequeued (s : State ι α) (i : ι) (q : BlockingQueue.State ι α) : State ι α :=
  if q.control i=.idle then
    match s.fast.stack i,(s.queue.control i).place.bind fun p => (q.inner p).delivered.head? with
    | .passed::rest,some r => s.taken i rest r.element q
    | _,_ => {s with queue := q}
  else {s with queue := q}

variable [DecidableEq α]

/-- Perform one step. -/
def next (spins w block : ℕ) (s : State ι α) : Act ι α → Option (State ι α)
  | .send i data =>
    if mayCall (s.fast.stack i)=true then
      (BlockingQueue.next spins w block s.queue (.enqueue i)).map fun q =>
        {s with queue := q,storing := Function.update s.storing i (some data)}
    else none
  | .dequeue i =>
    match s.fast.stack i with
    | .passed::_ =>
      (BlockingQueue.next spins w block s.queue (.request i .waitDequeue)).map fun q =>
        {s with queue := q}
    | _ => none
  | .queue (.store i b) =>
    match s.storing i with
    | some data =>
      if storesOnce data (s.queue.inner i) b=true then
        (BlockingQueue.next spins w block s.queue (.store i b)).map fun q => {s with queue := q}
      else none
    | none => none
  | .queue (.publish i) =>
    match s.storing i with
    | some data =>
      if (s.queue.inner i).written.length=(s.queue.inner i).tail+1 then
        (BlockingQueue.next spins w block s.queue (.publish i)).map (s.published i data)
      else none
    | none => none
  | .queue (.fail i) =>
    match s.storing i with
    | some _ => (BlockingQueue.next spins w block s.queue (.fail i)).map (s.unstored i)
    | none => none
  | .queue (.inner i b) =>
    (BlockingQueue.next spins w block s.queue (.inner i b)).map (s.dequeued i)
  | .queue a =>
    if between a=true then
      (BlockingQueue.next spins w block s.queue a).map fun q => {s with queue := q}
    else none
  | .fast a =>
    if outside a=true ∧ s.queue.control (actor a)=.idle then
      (FastThreads.next s.fast a).map fun f => {s with fast := f}
    else none

/-- No consumer decides on values which are older than half the range of a word. -/
def Timely (w : ℕ) (s : State ι α) : Act ι α → Prop
  | .queue a => BlockingQueue.Timely w s.queue a
  | _ => True

instance (w : ℕ) (s : State ι α) : (a : Act ι α) → Decidable (Timely w s a)
  | .queue a => inferInstanceAs (Decidable (BlockingQueue.Timely w s.queue a))
  | .send _ _ => inferInstanceAs (Decidable True)
  | .dequeue _ => inferInstanceAs (Decidable True)
  | .fast _ => inferInstanceAs (Decidable True)

/-- Everything an accepted step can do. -/
inductive Effect (spins w block : ℕ) (s : State ι α) : Act ι α → State ι α → Prop
  | sends (i : ι) (data : α) (q : BlockingQueue.State ι α) : mayCall (s.fast.stack i)=true →
      BlockingQueue.next spins w block s.queue (.enqueue i)=some q →
      Effect spins w block s (.send i data)
        {s with queue := q,storing := Function.update s.storing i (some data)}
  | requests (i : ι) (rest : List (Frame α)) (q : BlockingQueue.State ι α) :
      s.fast.stack i=.passed::rest →
      BlockingQueue.next spins w block s.queue (.request i .waitDequeue)=some q →
      Effect spins w block s (.dequeue i) {s with queue := q}
  | stores (i : ι) (data : α) (b : SubqueueClaims.Act ι α) (q : BlockingQueue.State ι α) :
      s.storing i=some data → storesOnce data (s.queue.inner i) b=true →
      BlockingQueue.next spins w block s.queue (.store i b)=some q →
      Effect spins w block s (.queue (.store i b)) {s with queue := q}
  | publishes (i : ι) (data : α) (q : BlockingQueue.State ι α) : s.storing i=some data →
      (s.queue.inner i).written.length=(s.queue.inner i).tail+1 →
      BlockingQueue.next spins w block s.queue (.publish i)=some q →
      Effect spins w block s (.queue (.publish i)) (s.published i data q)
  | fails (i : ι) (data : α) (q : BlockingQueue.State ι α) : s.storing i=some data →
      BlockingQueue.next spins w block s.queue (.fail i)=some q →
      Effect spins w block s (.queue (.fail i)) (s.unstored i q)
  | dequeues (i : ι) (b : SubqueueClaims.Act ι α) (q : BlockingQueue.State ι α) :
      BlockingQueue.next spins w block s.queue (.inner i b)=some q →
      Effect spins w block s (.queue (.inner i b)) (s.dequeued i q)
  | works (a : BlockingQueue.Act ι α) (q : BlockingQueue.State ι α) : between a=true →
      BlockingQueue.next spins w block s.queue a=some q →
      Effect spins w block s (.queue a) {s with queue := q}
  | moves (a : FastThreads.Act ι α) (f : FastThreads.State ι α) : outside a=true →
      s.queue.control (actor a)=.idle → FastThreads.next s.fast a=some f →
      Effect spins w block s (.fast a) {s with fast := f}

/-- The step function has no other effects. -/
theorem next_effect {spins w block : ℕ} {s s' : State ι α} {a : Act ι α}
    (h : next spins w block s a=some s') : Effect spins w block s a s' := by
  have hworks : ∀ b,(if between b=true then
      (BlockingQueue.next spins w block s.queue b).map fun q => {s with queue := q}
      else none)=some s' → Effect spins w block s (.queue b) s' := by
    intro b hb
    split_ifs at hb with hbetween
    obtain ⟨q,hq,rfl⟩ := Option.map_eq_some_iff.mp hb
    exact .works b q hbetween hq
  cases a with
  | send i data =>
    simp only [next] at h
    split_ifs at h with hmay
    obtain ⟨q,hq,rfl⟩ := Option.map_eq_some_iff.mp h
    exact .sends i data q hmay hq
  | dequeue i =>
    simp only [next] at h
    split at h <;> try cases h
    rename_i rest htop
    obtain ⟨q,hq,rfl⟩ := Option.map_eq_some_iff.mp h
    exact .requests i rest q htop hq
  | queue a =>
    cases a with
    | store i b =>
      simp only [next] at h
      split at h <;> try cases h
      rename_i data hdata
      split_ifs at h with hstores
      obtain ⟨q,hq,rfl⟩ := Option.map_eq_some_iff.mp h
      exact .stores i data b q hdata hstores hq
    | publish i =>
      simp only [next] at h
      split at h <;> try cases h
      rename_i data hdata
      split_ifs at h with hone
      obtain ⟨q,hq,rfl⟩ := Option.map_eq_some_iff.mp h
      exact .publishes i data q hdata hone hq
    | fail i =>
      simp only [next] at h
      split at h <;> try cases h
      rename_i data hdata
      obtain ⟨q,hq,rfl⟩ := Option.map_eq_some_iff.mp h
      exact .fails i data q hdata hq
    | inner i b =>
      obtain ⟨q,hq,rfl⟩ := Option.map_eq_some_iff.mp h
      exact .dequeues i b q hq
    | enqueue | request | signal | ask | sema | look | size | choose | advance => exact hworks _ h
  | fast a =>
    simp only [next] at h
    split_ifs at h with ha
    obtain ⟨f,hf,rfl⟩ := Option.map_eq_some_iff.mp h
    exact .moves a f ha.1 ha.2 hf

omit [DecidableEq α] in
/-- A step inside a sub-queue and the queue. -/
theorem dequeued_spec (s : State ι α) (i : ι) (q : BlockingQueue.State ι α) :
    (s.dequeued i q).queue=q ∧ (s.dequeued i q).failed=s.failed := by
  unfold State.dequeued
  split
  · split <;> exact ⟨rfl,rfl⟩
  · exact ⟨rfl,rfl⟩

/-- Every step is one of the queue or leaves it, and no failure is forgotten. -/
theorem next_queue {spins w block : ℕ} {s s' : State ι α} {a : Act ι α}
    (h : next spins w block s a=some s') : s.failed ≤ s'.failed ∧
      (s'.queue=s.queue ∨ ∃ b,BlockingQueue.next spins w block s.queue b=some s'.queue) := by
  cases next_effect h with
  | sends i data q _ hq => exact ⟨le_rfl,.inr ⟨_,hq⟩⟩
  | requests i rest q _ hq => exact ⟨le_rfl,.inr ⟨_,hq⟩⟩
  | stores i data b q _ _ hq => exact ⟨le_rfl,.inr ⟨_,hq⟩⟩
  | publishes i data q _ _ hq => exact ⟨le_rfl,.inr ⟨_,hq⟩⟩
  | fails i data q _ hq => exact ⟨Nat.le_succ _,.inr ⟨_,hq⟩⟩
  | dequeues i b q hq =>
    obtain ⟨hqueue,hfailed⟩ := dequeued_spec s i q
    rw [hqueue,hfailed]
    exact ⟨le_rfl,.inr ⟨_,hq⟩⟩
  | works b q _ hq => exact ⟨le_rfl,.inr ⟨_,hq⟩⟩
  | moves => exact ⟨le_rfl,.inl rfl⟩

/-- How the calls of a thread, what it is enqueuing, its own sub-queue and its
position in the queue belong together. -/
def Fits (stack : List (Frame α)) (storing : Option α) (written : List α) (tail : ℕ)
    (y : LightweightSemaphore.Phase) : BlockingQueue.Control ι → Prop
  | .idle => storing=none ∧ written.length=tail
  | .storing => ∃ data,storing=some data ∧ mayCall stack=true ∧
      (written.length=tail ∨ written=written.take tail++[data])
  | .stored count => storing=none ∧ written.length=tail ∧ (∃ rest,stack=.notifying::rest) ∧ count=1
  | .signalling =>
    storing=none ∧ written.length=tail ∧ (∃ rest,stack=.notifying::rest) ∧ y.unsaid ≤ 1
  | .asking r => storing=none ∧ written.length=tail ∧ (∃ rest,stack=.passed::rest) ∧ r=.waitDequeue
  | .acquiring r => storing=none ∧ written.length=tail ∧ (∃ rest,stack=.passed::rest) ∧
      r=.waitDequeue ∧ y.call=some (.wait (-1))
  | .searching r need _ => storing=none ∧ written.length=tail ∧ (∃ rest,stack=.passed::rest) ∧
      r=.waitDequeue ∧ need=1

/-- Everything about one thread belongs together. -/
def State.Fit (s : State ι α) (i : ι) : Prop :=
  Fits (s.fast.stack i) (s.storing i) (s.queue.inner i).written (s.queue.inner i).tail
    (s.queue.sema.phase i) (s.queue.control i)

/-- Whoever is in a call which takes units takes units. -/
theorem takes_of_call {y : LightweightSemaphore.Phase} {c : LightweightSemaphore.Call}
    (h : y.call=some c) : y.takes=true := by
  cases y <;> first | rfl | cases h

omit [DecidableEq α] in
/-- `wait` without a timeout returns with one unit. -/
theorem result_eq_one {spins : ℕ} {v v' : LightweightSemaphore.State ι}
    {b : LightweightSemaphore.Act ι} {receipt : LightweightSemaphore.Receipt ι}
    (hbegins : b.begins=false) (hcall : (v.phase b.thread).call=some (.wait (-1)))
    (hv : LightweightSemaphore.next spins v b=some v') (houtside : v'.phase b.thread=.outside)
    (hreceipt : v'.returned.head?=some receipt) (hresults : ∀ r∈v'.returned,r.Valid) :
    receipt.result=1 := by
  have hvalid := hresults receipt (List.mem_of_mem_head? hreceipt)
  cases LightweightSemaphore.next_progress hbegins hv with
  | takes y _ hy _ hphase =>
    rw [hphase,Function.update_self] at houtside
    rw [houtside] at hy
    cases hy
  | returns c result _ hc _ _ _ hreturned =>
    rw [hcall] at hc
    cases hc
    rw [hreturned] at hreceipt
    cases hreceipt
    have hbounded : result ≤ 1 := hvalid.bounded
    have hsucceeds : 0 < result := hvalid.succeeds rfl neg_one_lt_zero zero_lt_one
    change result=1
    omega
  | gives y hgives => exact absurd (takes_of_call hcall) (BlockingQueue.not_takes_of_gives hgives)

section Threads

variable {spins w block : ℕ} {s s' : State ι α} {i : ι} {q : BlockingQueue.State ι α}

omit [DecidableEq α] in
/-- A step of the queue which begins no call and ends none. -/
theorem fit_works {a : BlockingQueue.Act ι α} (hi : s.Fit a.thread) (ha : between a=true)
    (hresults : ∀ r∈q.sema.returned,r.Valid)
    (hn : BlockingQueue.next spins w block s.queue a=some q) :
    {s with queue := q}.Fit a.thread := by
  unfold State.Fit at hi ⊢
  cases BlockingQueue.next_effect hn with
  | enqueues | requests | stores | publishes | fails | dequeues => cases ha
  | walks a r need q q' _ hcontrol =>
    rw [hcontrol] at hi
    simp only [BlockingQueue.State.goto_control]
    exact hi
  | enters a r need q q' p u _ hcontrol _ _ hu =>
    rw [hcontrol] at hi
    have hinner : ((s.queue.put p u).inner a.thread).written=(s.queue.inner a.thread).written ∧
        ((s.queue.put p u).inner a.thread).tail=(s.queue.inner a.thread).tail := by
      by_cases hp : a.thread=p
      · rw [hp,BlockingQueue.State.put_inner]
        exact SubqueueClaims.next_consumer rfl hu
      · rw [BlockingQueue.State.put_inner_of_ne _ hp]
        exact ⟨rfl,rfl⟩
    simp only [BlockingQueue.State.goto_control,BlockingQueue.State.goto_inner,hinner]
    exact hi
  | signals i count v hcontrol hv =>
    simp only [BlockingQueue.Act.thread] at hi ⊢
    rw [hcontrol] at hi
    obtain ⟨hnone,hlength,htop,rfl⟩ := hi
    simp only [LightweightSemaphore.next] at hv
    split_ifs at hv
    cases hv
    simp only [BlockingQueue.State.goto_control,LightweightSemaphore.State.goto,
      Function.update_self]
    exact ⟨hnone,hlength,htop,le_rfl⟩
  | asks i r v hcontrol hv =>
    simp only [BlockingQueue.Act.thread] at hi ⊢
    rw [hcontrol] at hi
    obtain ⟨hnone,hlength,htop,rfl⟩ := hi
    simp only [LightweightSemaphore.next] at hv
    split_ifs at hv
    cases hv
    simp only [BlockingQueue.State.goto_control,LightweightSemaphore.State.goto,
      Function.update_self]
    exact ⟨hnone,hlength,htop,rfl,rfl⟩
  | gives b v hbegins hcontrol hv =>
    simp only [BlockingQueue.Act.thread] at hi ⊢
    rw [hcontrol] at hi
    obtain ⟨hnone,hlength,htop,hunsaid⟩ := hi
    simp only [BlockingQueue.State.goto_control]
    split
    · exact ⟨hnone,hlength⟩
    · refine ⟨hnone,hlength,htop,?_⟩
      cases LightweightSemaphore.next_progress hbegins hv with
      | takes y _ hy _ hphase =>
        rw [hphase,Function.update_self,BlockingQueue.unsaid_of_takes hy]
        exact zero_le_one
      | returns c result _ _ hphase =>
        rw [hphase,Function.update_self]
        exact zero_le_one
      | gives y _ _ hy hphase =>
        rw [hphase,Function.update_self,hy]
        exact zero_le_one
  | takes b r v hbegins hcontrol hv hinside =>
    simp only [BlockingQueue.Act.thread] at hi ⊢
    rw [hcontrol] at hi ⊢
    obtain ⟨hnone,hlength,htop,hr,hcall⟩ := hi
    refine ⟨hnone,hlength,htop,hr,?_⟩
    cases LightweightSemaphore.next_progress hbegins hv with
    | takes y _ _ hy hphase => rw [hphase,Function.update_self,hy,hcall]
    | returns c result _ _ hphase =>
      rw [hphase,Function.update_self] at hinside
      exact absurd rfl hinside
    | gives y hgives => exact absurd (takes_of_call hcall) (BlockingQueue.not_takes_of_gives hgives)
  | gets b r v receipt hbegins hcontrol hv houtside hreceipt =>
    simp only [BlockingQueue.Act.thread] at hi ⊢
    rw [hcontrol] at hi
    obtain ⟨hnone,hlength,htop,rfl,hcall⟩ := hi
    simp only [BlockingQueue.State.goto_control]
    rw [result_eq_one hbegins hcall hv houtside hreceipt hresults]
    exact ⟨hnone,hlength,htop,rfl,rfl⟩

omit [DecidableEq α] in
/-- A step of `enqueue` before the tuple is published. -/
theorem fit_stores [DecidableEq α] {data : α} {b : SubqueueClaims.Act ι α} (hi : s.Fit i)
    (hdata : s.storing i=some data) (hb : storesOnce data (s.queue.inner i) b=true)
    (hn : BlockingQueue.next spins w block s.queue (.store i b)=some q) :
    {s with queue := q}.Fit i := by
  unfold State.Fit at hi ⊢
  cases BlockingQueue.next_effect hn with
  | walks _ _ _ _ _ hseeks => cases hseeks
  | enters _ _ _ _ _ _ _ hseeks => cases hseeks
  | stores i b u hcontrol hstores hu =>
    rw [hcontrol] at hi
    obtain ⟨data',hdata',hmay,hwritten⟩ := hi
    cases hdata.symm.trans hdata'
    simp only [BlockingQueue.State.put_control,hcontrol,BlockingQueue.State.put_inner]
    refine ⟨data,hdata,hmay,?_⟩
    cases b with
    | reserve head =>
      simp only [SubqueueClaims.next] at hu
      split_ifs at hu <;> cases hu <;> exact hwritten
    | construct x =>
      simp only [storesOnce,decide_eq_true_eq] at hb
      simp only [SubqueueClaims.next] at hu
      split_ifs at hu
      cases hu
      obtain ⟨rfl,hlength⟩ := hb
      refine .inr ?_
      change _++[x]=List.take _ (_++[x])++[x]
      rw [List.take_append_of_le_length hlength.ge,←hlength,List.take_length]
    | _ => cases hb

omit [DecidableEq α] in
/-- The step which publishes the tuple of a call of `enqueue`. -/
theorem publish_spec {data : α} (hi : s.Fit i) (hdata : s.storing i=some data)
    (hone : (s.queue.inner i).written.length=(s.queue.inner i).tail+1)
    (hn : BlockingQueue.next spins w block s.queue (.publish i)=some q) :
    (s.published i data q).Fit i ∧ mayCall (s.fast.stack i)=true ∧
      ∃ u,q.inner=Function.update s.queue.inner i u ∧
        u.written.take u.tail=(s.queue.inner i).written.take (s.queue.inner i).tail++[data] ∧
        u.delivered=(s.queue.inner i).delivered := by
  unfold State.Fit at hi ⊢
  cases BlockingQueue.next_effect hn with
  | walks _ _ _ _ _ hseeks => cases hseeks
  | enters _ _ _ _ _ _ _ hseeks => cases hseeks
  | publishes i u hcontrol hu =>
    rw [hcontrol] at hi
    obtain ⟨data',hdata',hmay,hwritten⟩ := hi
    cases hdata.symm.trans hdata'
    cases hu
    have hlast := hwritten.resolve_left (by omega)
    refine ⟨?_,hmay,_,rfl,?_,rfl⟩
    · simp only [State.published,FastThreads.State.goto,Function.update_self,
        BlockingQueue.State.goto_control,BlockingQueue.State.goto_inner,
        BlockingQueue.State.put_inner]
      exact ⟨rfl,rfl,⟨_,rfl⟩,by omega⟩
    · rw [List.take_length]
      exact hlast

omit [DecidableEq α] in
/-- The step with which `enqueue` gives up. -/
theorem fail_spec (hi : s.Fit i)
    (hpublished : (s.queue.inner i).tail ≤ (s.queue.inner i).written.length)
    (hn : BlockingQueue.next spins w block s.queue (.fail i)=some q) :
    (s.unstored i q).Fit i ∧ mayCall (s.fast.stack i)=true ∧
      ∃ u,q.inner=Function.update s.queue.inner i u ∧
        u.written.take u.tail=(s.queue.inner i).written.take (s.queue.inner i).tail ∧
        u.delivered=(s.queue.inner i).delivered := by
  unfold State.Fit at hi ⊢
  cases BlockingQueue.next_effect hn with
  | walks _ _ _ _ _ hseeks => cases hseeks
  | enters _ _ _ _ _ _ _ hseeks => cases hseeks
  | fails i u hcontrol hu =>
    rw [hcontrol] at hi
    obtain ⟨data',hdata',hmay,hwritten⟩ := hi
    cases hu
    refine ⟨?_,hmay,_,rfl,?_,rfl⟩
    · simp only [State.unstored,FastThreads.State.goto,Function.update_self,
        BlockingQueue.State.goto_control,BlockingQueue.State.goto_inner,
        BlockingQueue.State.put_inner]
      refine ⟨rfl,?_⟩
      rw [List.length_take,min_eq_left hpublished]
    · change List.take _ (List.take _ _)=_
      rw [List.take_take,min_self]

omit [DecidableEq α] in
/-- A step of `wait_dequeue` inside a sub-queue: the call is over exactly if an
element was moved out. -/
theorem dequeue_spec [Fintype ι] {b : SubqueueClaims.Act ι α} (hw : 0 < w) (hblock : 0 < block)
    (hfits : block ≤ half w) (hi : s.Fit i) (hwhole : BlockingQueue.Whole spins w block s.queue)
    (hwhole' : BlockingQueue.Whole spins w block q)
    (hn : BlockingQueue.next spins w block s.queue (.inner i b)=some q) :
    ∃ rest p u,s.fast.stack i=.passed::rest ∧ (s.queue.control i).place=some p ∧
      s.storing i=none ∧ (s.queue.inner i).written.length=(s.queue.inner i).tail ∧
      q.inner=Function.update s.queue.inner p u ∧ u.written=(s.queue.inner p).written ∧
      u.tail=(s.queue.inner p).tail ∧
      (q.control i=.idle ∧ (∃ r,u.delivered=r::(s.queue.inner p).delivered ∧
          s.dequeued i q=s.taken i rest r.element q) ∨
        (∃ q',q.control i=.searching .waitDequeue 1 q') ∧
          u.delivered=(s.queue.inner p).delivered ∧ s.dequeued i q={s with queue := q}) := by
  unfold State.Fit at hi
  cases BlockingQueue.next_effect hn with
  | walks _ _ _ _ _ hseeks => cases hseeks
  | enters _ _ _ _ _ _ _ hseeks => cases hseeks
  | dequeues i b r need search p u hconsumer hbegins hcontrol hp hu =>
    have hplace : (s.queue.control i).place=some p := by rw [hcontrol]; exact hp
    rw [hcontrol] at hi
    obtain ⟨hnone,hlength,⟨rest,htop⟩,rfl,rfl⟩ := hi
    obtain ⟨acts,hacts⟩ := hwhole.inner p
    obtain ⟨⟨fate,hbooked⟩,-⟩ := SubqueueClaims.invariants_of_reaches hw hblock hfits hacts
    obtain ⟨z,hz⟩ := SubqueueClaims.next_progress hbooked hconsumer hbegins hu
    refine ⟨rest,p,u,htop,hplace,hnone,hlength,rfl,hz.written,hz.tail,?_⟩
    have hpositive := hwhole'.matched.positive i
    simp only [BlockingQueue.State.goto_control] at hpositive ⊢
    rcases hz.delivered with hsame|⟨receipt,hmore⟩
    · rw [hsame,Nat.sub_self,Nat.sub_zero]
      have hsearch : ∃ q',(if u.phase i=.idle then BlockingQueue.afterDequeue .waitDequeue 1 search
          else .searching .waitDequeue 1 search)=
            BlockingQueue.Control.searching .waitDequeue 1 q' := by
        split
        · exact ⟨_,rfl⟩
        · exact ⟨_,rfl⟩
      obtain ⟨q',hq'⟩ := hsearch
      refine .inr ⟨⟨q',hq'⟩,rfl,?_⟩
      rw [State.dequeued,BlockingQueue.State.goto_control,hq',if_neg (by intro hc; cases hc)]
    · rw [hmore,List.length_cons,Nat.add_sub_cancel_left,Nat.sub_self] at hpositive ⊢
      by_cases hidle : u.phase i=.idle
      · rw [if_pos hidle]
        refine .inl ⟨rfl,receipt,rfl,?_⟩
        rw [State.dequeued,BlockingQueue.State.goto_control,htop,hplace,Option.bind_some,
          BlockingQueue.State.goto_inner,BlockingQueue.State.put_inner,hmore,List.head?_cons]
        rfl
      · rw [if_neg hidle] at hpositive
        exact absurd (hpositive _ _ _ rfl) (lt_irrefl 0)

end Threads

section Runs

variable [Fintype ι] {spins w block : ℕ}

/-- The invariant of the channel and its queue. -/
structure Inv (spins w block : ℕ) (s : State ι α) : Prop where
  /-- The queue is in a state which it reaches. -/
  whole : BlockingQueue.Whole spins w block s.queue
  /-- Every thread. -/
  fit : ∀ i,s.Fit i

omit [DecidableEq α] in
/-- A new channel. -/
theorem inv_start : Inv spins w block (.start : State ι α) :=
  ⟨BlockingQueue.whole_start,fun _ => ⟨rfl,rfl⟩⟩

omit [DecidableEq α] [Fintype ι] in
/-- One thread has moved, and everything about it still belongs together. -/
theorem fit_moved {s s' : State ι α} {a : BlockingQueue.Act ι α} (h : ∀ i,s.Fit i)
    (hn : BlockingQueue.next spins w block s.queue a=some s'.queue)
    (hself : s'.Fit a.thread) (hstack : ∀ j,j≠a.thread → s'.fast.stack j=s.fast.stack j)
    (hstoring : ∀ j,j≠a.thread → s'.storing j=s.storing j) (j : ι) : s'.Fit j := by
  by_cases hj : j=a.thread
  · rw [hj]
    exact hself
  · obtain ⟨hcontrol,hphase,hwritten,htail⟩ := BlockingQueue.next_others hn hj
    have hfit := h j
    unfold State.Fit at hfit ⊢
    rwa [hstack j hj,hstoring j hj,hcontrol,hphase,hwritten,htail]

/-- Every step keeps the invariant. -/
theorem inv_step {s s' : State ι α} {a : Act ι α} (hcard : Fintype.card ι < 2147483648) (hw : 0 < w)
    (hblock : 0 < block) (hfits : block ≤ half w) (h : Inv spins w block s) (htimely : Timely w s a)
    (hn : next spins w block s a=some s') : Inv spins w block s' := by
  have hstep : ∀ {b q},BlockingQueue.Timely w s.queue b →
      BlockingQueue.next spins w block s.queue b=some q → BlockingQueue.Whole spins w block q :=
    fun ht hq => BlockingQueue.whole_step hcard hw hblock hfits h.whole ht hq
  cases next_effect hn with
  | sends i data q hmay hq =>
    refine ⟨hstep (Nat.zero_le _) hq,fit_moved h.fit hq ?_ (fun _ _ => rfl)
      fun j hj => Function.update_of_ne hj _ _⟩
    have hi := h.fit i
    unfold State.Fit at hi ⊢
    cases BlockingQueue.next_effect hq with
    | walks _ _ _ _ _ hseeks => cases hseeks
    | enters _ _ _ _ _ _ _ hseeks => cases hseeks
    | enqueues i list hcontrol =>
      rw [hcontrol] at hi
      simp only [BlockingQueue.Act.thread,BlockingQueue.State.goto_control,
        BlockingQueue.State.goto_inner,Function.update_self]
      exact ⟨data,rfl,hmay,.inl hi.2⟩
  | requests i rest q htop hq =>
    refine ⟨hstep (Nat.zero_le _) hq,fit_moved h.fit hq ?_ (fun _ _ => rfl) fun _ _ => rfl⟩
    have hi := h.fit i
    unfold State.Fit at hi ⊢
    cases BlockingQueue.next_effect hq with
    | walks _ _ _ _ _ hseeks => cases hseeks
    | enters _ _ _ _ _ _ _ hseeks => cases hseeks
    | requests i r hcontrol =>
      rw [hcontrol] at hi
      simp only [BlockingQueue.Act.thread,BlockingQueue.State.goto_control,
        BlockingQueue.State.goto_inner]
      exact ⟨hi.1,hi.2,⟨rest,htop⟩,rfl⟩
  | stores i data b q hdata hb hq =>
    exact ⟨hstep htimely hq,fit_moved h.fit hq (fit_stores (h.fit i) hdata hb hq) (fun _ _ => rfl)
      fun _ _ => rfl⟩
  | publishes i data q hdata hone hq =>
    exact ⟨hstep htimely hq,fit_moved h.fit hq (publish_spec (h.fit i) hdata hone hq).1
      (fun j hj => Function.update_of_ne hj _ _) fun j hj => Function.update_of_ne hj _ _⟩
  | fails i data q hdata hq =>
    obtain ⟨acts,hacts⟩ := h.whole.inner i
    obtain ⟨⟨fate,hbooked⟩,-⟩ := SubqueueClaims.invariants_of_reaches hw hblock hfits hacts
    exact ⟨hstep htimely hq,fit_moved h.fit hq (fail_spec (h.fit i) hbooked.published hq).1
      (fun j hj => Function.update_of_ne hj _ _) fun j hj => Function.update_of_ne hj _ _⟩
  | dequeues i b q hq =>
    have hwhole' := hstep htimely hq
    obtain ⟨rest,p,u,htop,hplace,hnone,hlength,hinner,hwritten,htail,hend⟩ :=
      dequeue_spec hw hblock hfits (h.fit i) h.whole hwhole' hq
    have hkept : (q.inner i).written.length=(q.inner i).tail := by
      by_cases hp : i=p
      · rw [hinner,←hp,Function.update_self,hwritten,htail,←hp,hlength]
      · rw [hinner,Function.update_of_ne hp,hlength]
    rcases hend with ⟨hidle,r,-,heq⟩|⟨⟨q',hsearch⟩,-,heq⟩
    · rw [heq]
      refine ⟨hwhole',fit_moved h.fit hq ?_ (fun j hj => Function.update_of_ne hj _ _)
        fun _ _ => rfl⟩
      unfold State.Fit
      simp only [BlockingQueue.Act.thread,State.taken,hidle]
      exact ⟨hnone,hkept⟩
    · rw [heq]
      refine ⟨hwhole',fit_moved h.fit hq ?_ (fun _ _ => rfl) fun _ _ => rfl⟩
      unfold State.Fit
      simp only [BlockingQueue.Act.thread,hsearch]
      exact ⟨hnone,hkept,⟨rest,htop⟩,rfl,rfl⟩
  | works b q hb hq =>
    have hwhole' := hstep htimely hq
    obtain ⟨acts,hacts⟩ := hwhole'.sema
    have hsound := LightweightSemaphore.sound_of_reaches hcard le_rfl hacts
    exact ⟨hwhole',fit_moved h.fit hq (fit_works (h.fit b.thread) hb hsound.results hq)
      (fun _ _ => rfl) fun _ _ => rfl⟩
  | moves b f hb hidle hf =>
    refine ⟨h.whole,fun j => ?_⟩
    obtain ⟨st,-,hstack⟩ := next_moves hf
    have hj := h.fit j
    unfold State.Fit at hj ⊢
    by_cases hself : j=actor b
    · rw [←hself] at hidle
      simp only [hidle] at hj ⊢
      exact hj
    · simp only [hstack,Function.update_of_ne hself]
      exact hj

end Runs

end FastEventSystem.FastOverQueue
