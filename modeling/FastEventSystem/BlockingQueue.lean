import FastEventSystem.LightweightSemaphore
import FastEventSystem.SubqueueDelivery

/-!
# The blocking queue

`BlockingConcurrentQueue` is the queue which a fast channel keeps its tuples in.
It puts a `LightweightSemaphore` in front of a `ConcurrentQueue`: a producer
stores its elements in a sub-queue of its own and signals as many units, a
consumer takes units first and then searches the sub-queues until it has as many
elements. Both parts are the machines of their own modules; here their steps
interleave under the control flow of the blocking queue.

The search cannot know where the elements are. `try_dequeue` looks at the
lengths of at most three sub-queues which are not empty, tries the longest, and
then all others; the bulk operations try all. A consumer with units repeats this
without giving up, so it must not search for something which is not there.
-/

namespace FastEventSystem.BlockingQueue

open CircularWords GuardedRuns PartyTotals

/-- A dequeue. -/
inductive Request where
  /-- `try_dequeue`. -/
  | tryDequeue
  /-- `wait_dequeue`. -/
  | waitDequeue
  /-- `wait_dequeue_timed`. -/
  | waitDequeueTimed (timeout : ℤ)
  /-- `try_dequeue_bulk`. -/
  | tryDequeueBulk (max : ℕ)
  /-- `wait_dequeue_bulk`. -/
  | waitDequeueBulk (max : ℕ)
  /-- `wait_dequeue_bulk_timed`. -/
  | waitDequeueBulkTimed (max : ℕ) (timeout : ℤ)
  deriving DecidableEq

/-- The call of the semaphore. -/
def Request.semaphoreCall : Request → LightweightSemaphore.Call
  | .tryDequeue => .tryWait
  | .waitDequeue => .wait (-1)
  | .waitDequeueTimed timeout => .wait timeout
  | .tryDequeueBulk max => .tryWaitMany max
  | .waitDequeueBulk max => .waitMany max (-1)
  | .waitDequeueBulkTimed max timeout => .waitMany max timeout

/-- Whether the search is for one element. -/
def Request.single : Request → Bool
  | .tryDequeue | .waitDequeue | .waitDequeueTimed _ => true
  | _ => false

/-- Whether the semaphore is asked again after it gave nothing. -/
def Request.repeats : Request → Bool
  | .waitDequeue => true
  | _ => false

/-- The call of a sub-queue, for a consumer which still needs so many elements. -/
def Request.dequeue (r : Request) (need : ℕ) : SubqueueClaims.Call :=
  if r.single=true then .dequeue else .dequeueBulk need

/-- Where a search stands. -/
inductive Search (ι : Type*) where
  /-- Before the load of `producerListTail`. -/
  | looking
  /-- In the loop over the lengths, before the next producer. -/
  | scanning (rest : List ι) (nonEmptyCount : ℕ) (best : Option ι) (bestSize : ℕ)
  /-- In `best->dequeue`. -/
  | first (best : ι)
  /-- It failed: before the second load of `producerListTail`. -/
  | missed (best : ι)
  /-- In the loop over all producers, before the next one. -/
  | sweeping (best : Option ι) (rest : List ι)
  /-- In that loop, in `ptr->dequeue`. -/
  | trying (best : Option ι) (ptr : ι) (rest : List ι)
  deriving DecidableEq

variable {ι α : Type*}

/-- The sub-queue the search is in. -/
def Search.place : Search ι → Option ι
  | .first best => some best
  | .trying _ ptr _ => some ptr
  | _ => none

/-- Where a search goes on after a sub-queue. -/
def Search.onward : Search ι → Search ι
  | .first best => .missed best
  | .trying best _ rest => .sweeping best rest
  | q => q

/-- Where a thread stands in the blocking queue. -/
inductive Control (ι : Type*) where
  /-- In no call. -/
  | idle
  /-- In `inner.enqueue` or `inner.enqueue_bulk`. -/
  | storing
  /-- Before `sema->signal` of so many units. -/
  | stored (count : ℕ)
  /-- In `sema->signal`. -/
  | signalling
  /-- Before the call of the semaphore. -/
  | asking (r : Request)
  /-- In it. -/
  | acquiring (r : Request)
  /-- Searching for so many elements. -/
  | searching (r : Request) (need : ℕ) (q : Search ι)
  deriving DecidableEq

/-- Elements the thread has units for and has not taken. -/
def Control.need : Control ι → ℕ
  | .searching _ need _ => need
  | _ => 0

/-- Elements the thread has published and not begun to signal. -/
def Control.unsaid : Control ι → ℕ
  | .stored count => count
  | _ => 0

/-- The sub-queue the thread is in as a consumer. -/
def Control.place : Control ι → Option ι
  | .searching _ _ q => q.place
  | _ => none

/-- The queue and its threads; every thread has its own sub-queue. -/
structure State (ι α : Type*) where
  /-- The semaphore. -/
  sema : LightweightSemaphore.State ι
  /-- The sub-queue of every thread. -/
  inner : ι → SubqueueClaims.State ι α
  /-- The list from `producerListTail` on: threads with a sub-queue. -/
  producers : List ι
  /-- Every thread's position. -/
  control : ι → Control ι

/-- A new queue. -/
def State.start : State ι α := ⟨.start 0,fun _ => .start,[],fun _ => .idle⟩

/-- One step of a thread. -/
inductive Act (ι α : Type*) where
  /-- Begin `enqueue` or `enqueue_bulk`; the first time a sub-queue is made. -/
  | enqueue (i : ι)
  /-- A step of the producer before it publishes. -/
  | store (i : ι) (a : SubqueueClaims.Act ι α)
  /-- It publishes. -/
  | publish (i : ι)
  /-- It gives up and returns false. -/
  | fail (i : ι)
  /-- Begin `sema->signal`. -/
  | signal (i : ι)
  /-- Begin a dequeue. -/
  | request (i : ι) (r : Request)
  /-- Begin the call of the semaphore. -/
  | ask (i : ι)
  /-- A step inside the semaphore. -/
  | sema (i : ι) (a : LightweightSemaphore.Act ι)
  /-- Load `producerListTail`; so many of the newest producers are not seen. -/
  | look (i : ι) (unseen : ℕ)
  /-- One turn of the loop over the lengths, with the loaded values. -/
  | size (i : ι) (tail head : ℕ)
  /-- The end of that loop. -/
  | choose (i : ι)
  /-- The next producer of the loop over all. -/
  | advance (i : ι)
  /-- A step inside a sub-queue. -/
  | inner (i : ι) (a : SubqueueClaims.Act ι α)

/-- The thread which takes a step. -/
def Act.thread : Act ι α → ι
  | .enqueue i | .store i _ | .publish i | .fail i | .signal i | .request i _ | .ask i | .sema i _
  | .look i _ | .size i _ _ | .choose i | .advance i | .inner i _ => i

/-- The steps of a search between the sub-queues. -/
def Act.seeks : Act ι α → Bool
  | .look _ _ | .size _ _ _ | .choose _ | .advance _ => true
  | _ => false

/-- The steps of a producer before it publishes or gives up. -/
def stores : SubqueueClaims.Act ι α → Bool
  | .reserve _ | .construct _ => true
  | _ => false

/-- `size_approx` of a sub-queue. -/
def sizeApprox {w : ℕ} (tail head : BitVec w) : ℕ :=
  if circularLessThan head tail=true then (tail-head).toNat else 0

/-- What a consumer does with the units it got. -/
def afterAcquire (r : Request) (got : ℕ) : Control ι :=
  if got=0 then (if r.repeats=true then .asking r else .idle) else .searching r got .looking

/-- What a consumer does after a sub-queue. -/
def afterDequeue (r : Request) (need : ℕ) (q : Search ι) : Control ι :=
  if need=0 then .idle else .searching r need q.onward

variable [DecidableEq ι]

/-- Move one thread. -/
def State.goto (s : State ι α) (i : ι) (c : Control ι) : State ι α :=
  {s with control := Function.update s.control i c}

/-- Replace one sub-queue. -/
def State.put (s : State ι α) (p : ι) (u : SubqueueClaims.State ι α) : State ι α :=
  {s with inner := Function.update s.inner p u}

/-- The position of the thread which has moved. -/
@[simp] theorem State.goto_control (s : State ι α) (i : ι) (c : Control ι) :
    (s.goto i c).control i=c := Function.update_self _ _ _

/-- The sub-queue which was replaced. -/
@[simp] theorem State.put_inner (s : State ι α) (p : ι) (u : SubqueueClaims.State ι α) :
    (s.put p u).inner p=u := Function.update_self _ _ _

/-- The others. -/
theorem State.put_inner_of_ne (s : State ι α) {p p' : ι} (h : p'≠p)
    (u : SubqueueClaims.State ι α) : (s.put p u).inner p'=s.inner p' :=
  Function.update_of_ne h _ _

/-- Replacing a sub-queue moves no thread. -/
@[simp] theorem State.put_control (s : State ι α) (p : ι) (u : SubqueueClaims.State ι α) :
    (s.put p u).control=s.control := rfl

/-- Moving a thread leaves the sub-queues. -/
@[simp] theorem State.goto_inner (s : State ι α) (i : ι) (c : Control ι) :
    (s.goto i c).inner=s.inner := rfl

/-- The last of two changes of a sub-queue and of a thread counts. -/
theorem State.put_goto_put_goto (s : State ι α) (p i : ι) (u u' : SubqueueClaims.State ι α)
    (c c' : Control ι) : (((s.put p u).goto i c).put p u').goto i c'=(s.put p u').goto i c' := by
  simp only [State.put,State.goto,Function.update_idem]

/-- The last of two moves of a thread counts. -/
theorem State.goto_goto (s : State ι α) (i : ι) (c c' : Control ι) :
    (s.goto i c).goto i c'=s.goto i c' := by
  simp only [State.goto,Function.update_idem]

/-- A thread which stays where it is. -/
theorem State.goto_self {s : State ι α} {i : ι} {c : Control ι} (h : s.control i=c) :
    s.goto i c=s := by
  rw [State.goto,←h,Function.update_eq_self]

/-- Begin a dequeue on a sub-queue. -/
def State.enter (s : State ι α) (w block : ℕ) (i : ι) (r : Request) (need : ℕ) (p : ι)
    (q : Search ι) : Option (State ι α) :=
  (SubqueueClaims.next w block (s.inner p) (.call i (r.dequeue need))).map fun u =>
    (s.put p u).goto i (.searching r need q)

/-- Perform one step. -/
def next (spins w block : ℕ) (s : State ι α) : Act ι α → Option (State ι α)
  | .enqueue i =>
    match s.control i with
    | .idle => some {s.goto i .storing with
        producers := if i∈s.producers then s.producers else i::s.producers}
    | _ => none
  | .store i a =>
    match s.control i with
    | .storing =>
      if stores a=true then (SubqueueClaims.next w block (s.inner i) a).map (s.put i) else none
    | _ => none
  | .publish i =>
    match s.control i with
    | .storing => (SubqueueClaims.next w block (s.inner i) .publish).map fun u =>
        (s.put i u).goto i (.stored (u.tail-(s.inner i).tail))
    | _ => none
  | .fail i =>
    match s.control i with
    | .storing => (SubqueueClaims.next w block (s.inner i) .abandon).map fun u =>
        (s.put i u).goto i .idle
    | _ => none
  | .signal i =>
    match s.control i with
    | .stored count => (LightweightSemaphore.next spins s.sema (.signal i count)).map fun v =>
        {s.goto i .signalling with sema := v}
    | _ => none
  | .request i r =>
    match s.control i with
    | .idle => some (s.goto i (.asking r))
    | _ => none
  | .ask i =>
    match s.control i with
    | .asking r => (LightweightSemaphore.next spins s.sema (.call i r.semaphoreCall)).map fun v =>
        {s.goto i (.acquiring r) with sema := v}
    | _ => none
  | .sema i a =>
    if a.thread=i ∧ a.begins=false then
      match s.control i with
      | .signalling => (LightweightSemaphore.next spins s.sema a).map fun v =>
          {s.goto i (if v.phase i=.outside then .idle else .signalling) with sema := v}
      | .acquiring r => (LightweightSemaphore.next spins s.sema a).bind fun v =>
          if v.phase i=.outside then
            v.returned.head?.map fun receipt =>
              {s.goto i (afterAcquire r receipt.result.toNat) with sema := v}
          else some {s with sema := v}
      | _ => none
    else none
  | .look i unseen =>
    match s.control i with
    | .searching r need .looking => some (s.goto i (.searching r need
        (if r.single=true then .scanning (s.producers.drop unseen) 0 none 0
          else .sweeping none (s.producers.drop unseen))))
    | .searching r need (.missed best) => some (s.goto i (.searching r need
        (.sweeping (some best) (s.producers.drop unseen))))
    | _ => none
  | .size i tail head =>
    match s.control i with
    | .searching r need (.scanning (p::rest) nonEmptyCount best bestSize) =>
      if nonEmptyCount < 3 ∧ tail ≤ (s.inner p).tail ∧ head ≤ (s.inner p).head then
        let size := sizeApprox (word w tail) (word w head)
        some (s.goto i (.searching r need (
          if 0 < size then
            if bestSize < size then .scanning rest (nonEmptyCount+1) (some p) size
            else .scanning rest (nonEmptyCount+1) best bestSize
          else .scanning rest nonEmptyCount best bestSize)))
      else none
    | _ => none
  | .choose i =>
    match s.control i with
    | .searching r need (.scanning rest nonEmptyCount best _) =>
      if 3 ≤ nonEmptyCount ∨ rest=[] then
        if nonEmptyCount=0 then some (s.goto i (.searching r need .looking))
        else best.bind fun p => s.enter w block i r need p (.first p)
      else none
    | _ => none
  | .advance i =>
    match s.control i with
    | .searching r need (.sweeping _ []) => some (s.goto i (.searching r need .looking))
    | .searching r need (.sweeping best (p::rest)) =>
      if best=some p then some (s.goto i (.searching r need (.sweeping best rest)))
      else s.enter w block i r need p (.trying best p rest)
    | _ => none
  | .inner i a =>
    if a.consumer=some i ∧ a.begins=false then
      match s.control i with
      | .searching r need q => q.place.bind fun p =>
          (SubqueueClaims.next w block (s.inner p) a).map fun u =>
            let left := need-(u.delivered.length-(s.inner p).delivered.length)
            (s.put p u).goto i
              (if u.phase i=.idle then afterDequeue r left q else .searching r left q)
      | _ => none
    else none

/-- How old the values are on which a consumer decides inside a sub-queue. -/
def lag (s : State ι α) : Act ι α → ℕ
  | .inner i a =>
    match (s.control i).place with
    | some p => SubqueueClaims.ahead (s.inner p) a
    | none => 0
  | _ => 0

/-- No consumer decides on values which are older than half the range of a word. -/
def Timely (w : ℕ) (s : State ι α) (a : Act ι α) : Prop := lag s a ≤ half w

instance (w : ℕ) (s : State ι α) (a : Act ι α) : Decidable (Timely w s a) :=
  inferInstanceAs (Decidable (lag s a ≤ half w))

/-- Where the thread stands in the semaphore. -/
def Agrees : Control ι → LightweightSemaphore.Phase → Prop
  | .signalling,y => y.gives=true
  | .acquiring _,y => y.takes=true
  | _,y => y=.outside

/-- A thread walks on without the semaphore, a sub-queue or its units. -/
structure Walk (c c' : Control ι) : Prop where
  /-- It was in no sub-queue. -/
  before : c.place=none
  /-- And is in none. -/
  after : c'.place=none
  /-- Its units. -/
  need : c'.need=c.need
  /-- What it has to signal. -/
  unsaid : c'.unsaid=c.unsaid
  /-- Its position in the semaphore. -/
  agrees : ∀ y,Agrees c y → Agrees c' y
  /-- A search goes on with as many units. -/
  searches : ∀ r need q,c'=.searching r need q → ∃ q',c=.searching r need q'

/-- Everything an accepted step can do. -/
inductive Effect (spins w block : ℕ) (s : State ι α) : Act ι α → State ι α → Prop
  | enqueues (i : ι) (list : List ι) : s.control i=.idle → (∀ j,j∈s.producers → j∈list) → i∈list →
      Effect spins w block s (.enqueue i) {s.goto i .storing with producers := list}
  | requests (i : ι) (r : Request) : s.control i=.idle →
      Effect spins w block s (.request i r) (s.goto i (.asking r))
  | walks (a : Act ι α) (r : Request) (need : ℕ) (q q' : Search ι) : a.seeks=true →
      s.control a.thread=.searching r need q → q.place=none → q'.place=none →
      Effect spins w block s a (s.goto a.thread (.searching r need q'))
  | stores (i : ι) (a : SubqueueClaims.Act ι α) (u : SubqueueClaims.State ι α) :
      s.control i=.storing → stores a=true → SubqueueClaims.next w block (s.inner i) a=some u →
      Effect spins w block s (.store i a) (s.put i u)
  | publishes (i : ι) (u : SubqueueClaims.State ι α) : s.control i=.storing →
      SubqueueClaims.next w block (s.inner i) .publish=some u →
      Effect spins w block s (.publish i)
        ((s.put i u).goto i (.stored (u.tail-(s.inner i).tail)))
  | fails (i : ι) (u : SubqueueClaims.State ι α) : s.control i=.storing →
      SubqueueClaims.next w block (s.inner i) .abandon=some u →
      Effect spins w block s (.fail i) ((s.put i u).goto i .idle)
  | signals (i : ι) (count : ℕ) (v : LightweightSemaphore.State ι) : s.control i=.stored count →
      LightweightSemaphore.next spins s.sema (.signal i count)=some v →
      Effect spins w block s (.signal i) {s.goto i .signalling with sema := v}
  | asks (i : ι) (r : Request) (v : LightweightSemaphore.State ι) : s.control i=.asking r →
      LightweightSemaphore.next spins s.sema (.call i r.semaphoreCall)=some v →
      Effect spins w block s (.ask i) {s.goto i (.acquiring r) with sema := v}
  | gives (a : LightweightSemaphore.Act ι) (v : LightweightSemaphore.State ι) :
      a.begins=false → s.control a.thread=.signalling →
      LightweightSemaphore.next spins s.sema a=some v →
      Effect spins w block s (.sema a.thread a)
        {s.goto a.thread (if v.phase a.thread=.outside then .idle else .signalling) with sema := v}
  | takes (a : LightweightSemaphore.Act ι) (r : Request) (v : LightweightSemaphore.State ι) :
      a.begins=false → s.control a.thread=.acquiring r →
      LightweightSemaphore.next spins s.sema a=some v → v.phase a.thread≠.outside →
      Effect spins w block s (.sema a.thread a) {s with sema := v}
  | gets (a : LightweightSemaphore.Act ι) (r : Request) (v : LightweightSemaphore.State ι)
      (receipt : LightweightSemaphore.Receipt ι) :
      a.begins=false → s.control a.thread=.acquiring r →
      LightweightSemaphore.next spins s.sema a=some v → v.phase a.thread=.outside →
      v.returned.head?=some receipt →
      Effect spins w block s (.sema a.thread a)
        {s.goto a.thread (afterAcquire r receipt.result.toNat) with sema := v}
  | enters (a : Act ι α) (r : Request) (need : ℕ) (q q' : Search ι) (p : ι)
      (u : SubqueueClaims.State ι α) : a.seeks=true → s.control a.thread=.searching r need q →
      q.place=none → q'.place=some p →
      SubqueueClaims.next w block (s.inner p) (.call a.thread (r.dequeue need))=some u →
      Effect spins w block s a ((s.put p u).goto a.thread (.searching r need q'))
  | dequeues (i : ι) (a : SubqueueClaims.Act ι α) (r : Request) (need : ℕ) (q : Search ι) (p : ι)
      (u : SubqueueClaims.State ι α) : a.consumer=some i → a.begins=false →
      s.control i=.searching r need q → q.place=some p →
      SubqueueClaims.next w block (s.inner p) a=some u →
      Effect spins w block s (.inner i a) ((s.put p u).goto i
        (if u.phase i=.idle then
          afterDequeue r (need-(u.delivered.length-(s.inner p).delivered.length)) q
        else .searching r (need-(u.delivered.length-(s.inner p).delivered.length)) q))

omit [DecidableEq ι] in
/-- One step of a search with the same units is a walk. -/
theorem walk_search {r : Request} {need : ℕ} {q q' : Search ι} (hq : q.place=none)
    (hq' : q'.place=none) : Walk (.searching r need q) (.searching r need q') := by
  refine ⟨hq,hq',rfl,rfl,fun _ hy => hy,?_⟩
  intro r' need' q'' heq
  cases heq
  exact ⟨q,rfl⟩

/-- Beginning a dequeue on a sub-queue. -/
theorem enter_effect {spins w block : ℕ} {s s' : State ι α} {a : Act ι α} {r : Request} {need : ℕ}
    {q q' : Search ι} {p : ι} (ha : a.seeks=true) (hi : s.control a.thread=.searching r need q)
    (hq : q.place=none) (hq' : q'.place=some p)
    (h : s.enter w block a.thread r need p q'=some s') : Effect spins w block s a s' := by
  obtain ⟨u,hu,rfl⟩ := Option.map_eq_some_iff.mp h
  exact .enters a r need q q' p u ha hi hq hq' hu

/-- The step function has no other effects. -/
theorem next_effect {spins w block : ℕ} {s s' : State ι α} {a : Act ι α}
    (h : next spins w block s a=some s') : Effect spins w block s a s' := by
  cases a with
  | enqueue i =>
    simp only [next] at h
    split at h <;> cases h
    rename_i hi
    refine .enqueues i _ hi (fun j hj => ?_) ?_
    · split
      · exact hj
      · exact List.mem_cons_of_mem _ hj
    · split
      · assumption
      · exact List.mem_cons_self
  | store i a =>
    simp only [next] at h
    split at h <;> try cases h
    rename_i hi
    split_ifs at h with hstores
    obtain ⟨u,hu,rfl⟩ := Option.map_eq_some_iff.mp h
    exact .stores i a u hi hstores hu
  | publish i =>
    simp only [next] at h
    split at h <;> cases h
    rename_i hi
    exact .publishes i _ hi rfl
  | fail i =>
    simp only [next] at h
    split at h <;> cases h
    rename_i hi
    exact .fails i _ hi rfl
  | signal i =>
    simp only [next] at h
    split at h <;> try cases h
    rename_i count hi
    obtain ⟨v,hv,rfl⟩ := Option.map_eq_some_iff.mp h
    exact .signals i count v hi hv
  | request i r =>
    simp only [next] at h
    split at h <;> cases h
    rename_i hi
    exact .requests i r hi
  | ask i =>
    simp only [next] at h
    split at h <;> try cases h
    rename_i r hi
    obtain ⟨v,hv,rfl⟩ := Option.map_eq_some_iff.mp h
    exact .asks i r v hi hv
  | sema i a =>
    simp only [next] at h
    split_ifs at h with ha
    obtain ⟨rfl,hbegins⟩ := ha
    split at h <;> try cases h
    · rename_i hi
      obtain ⟨v,hv,rfl⟩ := Option.map_eq_some_iff.mp h
      exact .gives a v hbegins hi hv
    · rename_i r hi
      obtain ⟨v,hv,hout⟩ := Option.bind_eq_some_iff.mp h
      split_ifs at hout with houtside
      · obtain ⟨receipt,hreceipt,rfl⟩ := Option.map_eq_some_iff.mp hout
        exact .gets a r v receipt hbegins hi hv houtside hreceipt
      · cases hout
        exact .takes a r v hbegins hi hv houtside
  | look i unseen =>
    simp only [next] at h
    split at h <;> cases h
    · rename_i r need hi
      refine .walks _ r need _ _ rfl hi rfl ?_
      split <;> rfl
    · rename_i r need best hi
      exact .walks _ r need _ _ rfl hi rfl rfl
  | size i tail head =>
    simp only [next] at h
    split at h <;> try cases h
    rename_i r need p rest nonEmptyCount best bestSize hi
    rw [Option.ite_none_right_eq_some] at h
    cases h.2
    refine .walks _ r need _ _ rfl hi rfl ?_
    split_ifs <;> rfl
  | choose i =>
    simp only [next] at h
    split at h <;> try cases h
    rename_i r need rest nonEmptyCount best bestSize hi
    split_ifs at h
    · cases h
      exact .walks _ r need _ _ rfl hi rfl rfl
    · obtain ⟨p,rfl,henter⟩ := Option.bind_eq_some_iff.mp h
      exact enter_effect rfl hi rfl rfl henter
  | advance i =>
    simp only [next] at h
    split at h <;> try cases h
    · rename_i r need best hi
      exact .walks _ r need _ _ rfl hi rfl rfl
    · rename_i r need best p rest hi
      split_ifs at h
      · cases h
        exact .walks _ r need _ _ rfl hi rfl rfl
      · exact enter_effect rfl hi rfl rfl h
  | inner i a =>
    simp only [next] at h
    split_ifs at h with ha
    split at h <;> try cases h
    rename_i r need q hi
    obtain ⟨p,hp,hstep⟩ := Option.bind_eq_some_iff.mp h
    obtain ⟨u,hu,rfl⟩ := Option.map_eq_some_iff.mp hstep
    exact .dequeues i a r need q p u ha.1 ha.2 hi hp hu

/-- What a step does to the semaphore is one of its own steps. -/
theorem next_sema {spins w block : ℕ} {s s' : State ι α} {a : Act ι α}
    (h : next spins w block s a=some s') :
    s'.sema=s.sema ∨ ∃ b,LightweightSemaphore.next spins s.sema b=some s'.sema := by
  cases next_effect h with
  | enqueues | requests | walks | stores | publishes | fails | enters | dequeues => exact .inl rfl
  | signals i count v hi hv => exact .inr ⟨_,hv⟩
  | asks i r v hi hv => exact .inr ⟨_,hv⟩
  | gives b v hbegins hi hv => exact .inr ⟨_,hv⟩
  | takes b r v hbegins hi hv => exact .inr ⟨_,hv⟩
  | gets b r v receipt hbegins hi hv => exact .inr ⟨_,hv⟩

/-- The other threads stay where they are, and their own sub-queues keep what
was constructed and published there. -/
theorem next_others {spins w block : ℕ} {s s' : State ι α} {a : Act ι α}
    (h : next spins w block s a=some s') {j : ι} (hj : j≠a.thread) :
    s'.control j=s.control j ∧ s'.sema.phase j=s.sema.phase j ∧
      (s'.inner j).written=(s.inner j).written ∧ (s'.inner j).tail=(s.inner j).tail := by
  have hother : ∀ c : Control ι,Function.update s.control a.thread c j=s.control j :=
    fun _ => Function.update_of_ne hj _ _
  have hphase : ∀ q,Function.update s.sema.phase a.thread q j=s.sema.phase j :=
    fun _ => Function.update_of_ne hj _ _
  have hself : ∀ u,Function.update s.inner a.thread u j=s.inner j :=
    fun _ => Function.update_of_ne hj _ _
  have hqueue : ∀ {p u b},SubqueueClaims.next w block (s.inner p) b=some u →
      b.consumer=some a.thread → (Function.update s.inner p u j).written=(s.inner j).written ∧
        (Function.update s.inner p u j).tail=(s.inner j).tail := by
    intro p u b hu hconsumer
    by_cases hp : j=p
    · rw [hp,Function.update_self]
      exact SubqueueClaims.next_consumer hconsumer hu
    · rw [Function.update_of_ne hp]
      exact ⟨rfl,rfl⟩
  cases next_effect h with
  | enqueues | requests | walks => exact ⟨hother _,rfl,rfl,rfl⟩
  | stores i b u => exact ⟨rfl,rfl,congrArg _ (hself u),congrArg _ (hself u)⟩
  | publishes i u | fails i u => exact ⟨hother _,rfl,congrArg _ (hself u),congrArg _ (hself u)⟩
  | signals i count v hi hv | asks i r v hi hv =>
    simp only [LightweightSemaphore.next] at hv
    split_ifs at hv
    cases hv
    exact ⟨hother _,hphase _,rfl,rfl⟩
  | gives b v hbegins hi hv =>
    exact ⟨hother _,LightweightSemaphore.next_others hbegins hv hj,rfl,rfl⟩
  | takes b r v hbegins hi hv => exact ⟨rfl,LightweightSemaphore.next_others hbegins hv hj,rfl,rfl⟩
  | gets b r v receipt hbegins hi hv =>
    exact ⟨hother _,LightweightSemaphore.next_others hbegins hv hj,rfl,rfl⟩
  | enters a r need q q' p u ha hi hq hq' hu => exact ⟨hother _,rfl,hqueue hu rfl⟩
  | dequeues i b r need q p u hconsumer hbegins hi hp hu => exact ⟨hother _,rfl,hqueue hu hconsumer⟩

section Totals

variable [Fintype ι]

/-- Elements which threads have units for and have not taken. -/
def needs (s : State ι α) : ℤ := total (fun _ (c : Control ι) => (c.need : ℤ)) s.control

/-- Elements which are published and not added to the count yet. -/
def unsaid (s : State ι α) : ℤ :=
  total (fun _ (c : Control ι) => (c.unsaid : ℤ)) s.control+
    total (fun _ y => LightweightSemaphore.Phase.unsaid y) s.sema.phase

/-- Elements published in all sub-queues. -/
def published (s : State ι α) : ℤ :=
  total (fun _ (u : SubqueueClaims.State ι α) => (u.tail : ℤ)) s.inner

/-- Elements moved out of all sub-queues. -/
def movedOut (s : State ι α) : ℤ :=
  total (fun _ (u : SubqueueClaims.State ι α) => (u.delivered.length : ℤ)) s.inner

/-- Units and elements match. -/
structure Matched (s : State ι α) : Prop where
  /-- Every thread is in the semaphore exactly if its control says so. -/
  agrees : ∀ i,Agrees (s.control i) (s.sema.phase i)
  /-- A thread is in no other sub-queue than its search is in. -/
  away : ∀ i p,(s.control i).place≠some p → (s.inner p).phase i=.idle
  /-- There it asks for no more than it has units for. -/
  there : ∀ i p,(s.control i).place=some p →
    (s.inner p).phase i≠.idle ∧ ((s.inner p).phase i).reach ≤ (s.control i).need
  /-- Whoever searches has units. -/
  positive : ∀ i r need q,s.control i=.searching r need q → 0 < need
  /-- A producer is in the list before it stores anything. -/
  listed : ∀ p,p∉s.producers → s.control p≠.storing ∧ (s.inner p).tail=0
  /-- Units given are elements published. -/
  signalled : s.sema.signalled+unsaid s=published s
  /-- Units taken are elements moved out or searched for. -/
  acquired : s.sema.acquired=needs s+movedOut s

omit [DecidableEq ι] in
/-- A new queue. -/
theorem matched_start : Matched (.start : State ι α) := by
  have hneeds : needs (.start : State ι α)=0 := total_eq_zero _ _ fun _ => rfl
  have hmoved : movedOut (.start : State ι α)=0 := total_eq_zero _ _ fun _ => rfl
  have hpublished : published (.start : State ι α)=0 := total_eq_zero _ _ fun _ => rfl
  have hunsaid : unsaid (.start : State ι α)=0 := by
    have hcontrol : total (fun _ (c : Control ι) => (c.unsaid : ℤ))
        (.start : State ι α).control=0 := total_eq_zero _ _ fun _ => rfl
    have hphase : total (fun _ y => LightweightSemaphore.Phase.unsaid y)
        (.start : State ι α).sema.phase=0 := total_eq_zero _ _ fun _ => rfl
    rw [unsaid,hcontrol,hphase,add_zero]
  refine ⟨fun _ => rfl,fun _ _ _ => rfl,nofun,nofun,fun _ _ => ⟨nofun,rfl⟩,?_,?_⟩
  · rw [hunsaid,hpublished]
    rfl
  · rw [hneeds,hmoved]
    rfl

/-- One thread moved, in the semaphore or in one sub-queue: its new position in
the queue and in the semaphore, and the sub-queue after that. -/
structure Moved (s s' : State ι α) (i p : ι) (c : Control ι) (y : LightweightSemaphore.Phase)
    (u : SubqueueClaims.State ι α) : Prop where
  /-- No other thread. -/
  control : s'.control=Function.update s.control i c
  /-- Not in the semaphore either. -/
  phase : s'.sema.phase=Function.update s.sema.phase i y
  /-- No other sub-queue. -/
  inner : s'.inner=Function.update s.inner p u
  /-- No other thread in this one. -/
  inside : ∀ j,j≠i → u.phase j=(s.inner p).phase j
  /-- It was in this sub-queue or in none. -/
  before : (s.control i).place=none ∨ (s.control i).place=some p
  /-- And is. -/
  after : c.place=none ∨ c.place=some p
  /-- Its position in the semaphore. -/
  agrees : Agrees c y
  /-- It is not in the sub-queue. -/
  away : c.place=none → u.phase i=.idle
  /-- Or it is. -/
  there : c.place=some p → u.phase i≠.idle ∧ (u.phase i).reach ≤ c.need
  /-- Whoever searches has units. -/
  positive : ∀ r need q,c=.searching r need q → 0 < need
  /-- No producer leaves the list. -/
  listed : ∀ j,j∈s.producers → j∈s'.producers
  /-- Whoever stores is in it. -/
  storing : c=.storing → i∈s'.producers
  /-- And so is whoever published. -/
  stored : p∈s'.producers ∨ u.tail=(s.inner p).tail
  /-- The account of elements published. -/
  signalled : s'.sema.signalled+c.unsaid+y.unsaid+(s.inner p).tail=
    s.sema.signalled+(s.control i).unsaid+(s.sema.phase i).unsaid+u.tail
  /-- The account of elements moved out. -/
  acquired : s'.sema.acquired+(s.control i).need+(s.inner p).delivered.length=
    s.sema.acquired+c.need+u.delivered.length

section Moves

variable {s s' : State ι α} {i p : ι} {c : Control ι} {y : LightweightSemaphore.Phase}
  {u : SubqueueClaims.State ι α}

omit [Fintype ι] in
/-- Other threads and sub-queues are as before. -/
theorem Moved.others (hm : Moved s s' i p c y u) :
    (∀ j,j≠i → s'.control j=s.control j ∧ s'.sema.phase j=s.sema.phase j ∧
      ∀ p',(s'.inner p').phase j=(s.inner p').phase j) ∧
    (∀ p',p'≠p → s'.inner p'=s.inner p') ∧
    s'.control i=c ∧ s'.sema.phase i=y ∧ s'.inner p=u := by
  have hinner : ∀ p',p'≠p → s'.inner p'=s.inner p' := by
    intro p' hp'
    rw [hm.inner,Function.update_of_ne hp']
  have hp : s'.inner p=u := by rw [hm.inner,Function.update_self]
  refine ⟨fun j hj => ⟨?_,?_,fun p' => ?_⟩,hinner,?_,?_,hp⟩
  · rw [hm.control,Function.update_of_ne hj]
  · rw [hm.phase,Function.update_of_ne hj]
  · by_cases hp' : p'=p
    · rw [hp',hp,hm.inside j hj]
    · rw [hinner p' hp']
  · rw [hm.control,Function.update_self]
  · rw [hm.phase,Function.update_self]

/-- Everything still matches. -/
theorem matched_moved (h : Matched s) (hm : Moved s s' i p c y u) : Matched s' := by
  obtain ⟨hothers,hinner,hi,hy,hp⟩ := hm.others
  refine ⟨fun j => ?_,fun j p' hj => ?_,fun j p' hj => ?_,fun j r need q hj => ?_,fun p' hp' => ?_,
    ?_,?_⟩
  · by_cases hji : j=i
    · rw [hji,hi,hy]
      exact hm.agrees
    · rw [(hothers j hji).1,(hothers j hji).2.1]
      exact h.agrees j
  · by_cases hji : j=i
    · subst hji
      rw [hi] at hj
      by_cases hp' : p'=p
      · rw [hp',hp]
        refine hm.away (hm.after.resolve_right fun hsome => hj ?_)
        rw [hsome,hp']
      · rw [hinner p' hp']
        refine h.away j p' fun hplace => ?_
        rcases hm.before with hnone|hsome
        · rw [hnone] at hplace
          cases hplace
        · rw [hsome] at hplace
          exact hp' (Option.some.inj hplace).symm
    · rw [(hothers j hji).1] at hj
      rw [(hothers j hji).2.2 p']
      exact h.away j p' hj
  · by_cases hji : j=i
    · subst hji
      rw [hi] at hj ⊢
      have hp' : p'=p := by
        rcases hm.after with hnone|hsome
        · rw [hnone] at hj
          cases hj
        · rw [hsome] at hj
          exact (Option.some.inj hj).symm
      subst hp'
      rw [hp]
      exact hm.there hj
    · rw [(hothers j hji).1] at hj ⊢
      rw [(hothers j hji).2.2 p']
      exact h.there j p' hj
  · by_cases hji : j=i
    · rw [hji,hi] at hj
      exact hm.positive r need q hj
    · rw [(hothers j hji).1] at hj
      exact h.positive j r need q hj
  · obtain ⟨hstoring,htail⟩ := h.listed p' fun hmem => hp' (hm.listed p' hmem)
    constructor
    · by_cases hji : p'=i
      · subst hji
        rw [hi]
        exact fun hstore => hp' (hm.storing hstore)
      · rw [(hothers p' hji).1]
        exact hstoring
    · by_cases hpp : p'=p
      · subst hpp
        rw [hp,hm.stored.resolve_left hp',htail]
      · rw [hinner p' hpp,htail]
  · have hunsaid := total_update (fun _ (c : Control ι) => (c.unsaid : ℤ)) s.control i c
    have hsaying := total_update (fun _ y => LightweightSemaphore.Phase.unsaid y) s.sema.phase i y
    have htails := total_update (fun _ (u : SubqueueClaims.State ι α) => (u.tail : ℤ)) s.inner p u
    rw [←hm.control] at hunsaid
    rw [←hm.phase] at hsaying
    rw [←hm.inner] at htails
    have hold := h.signalled
    have hnew := hm.signalled
    unfold unsaid published at hold ⊢
    omega
  · have hneeds := total_update (fun _ (c : Control ι) => (c.need : ℤ)) s.control i c
    have hmoved := total_update
      (fun _ (u : SubqueueClaims.State ι α) => (u.delivered.length : ℤ)) s.inner p u
    rw [←hm.control] at hneeds
    rw [←hm.inner] at hmoved
    have hold := h.acquired
    have hnew := hm.acquired
    unfold needs movedOut at hold ⊢
    omega

/-- A thread walks on. -/
theorem moved_walk (h : Matched s) {c' : Control ι} {list : List ι} (hi : s.control i=c)
    (hwalk : Walk c c') (hlisted : ∀ j,j∈s.producers → j∈list) (hstoring : c'=.storing → i∈list) :
    Moved s {s.goto i c' with producers := list} i i c' (s.sema.phase i) (s.inner i) := by
  have hagrees := h.agrees i
  rw [hi] at hagrees
  constructor
  case control => rfl
  case phase => exact (Function.update_eq_self _ _).symm
  case inner => exact (Function.update_eq_self _ _).symm
  case inside => exact fun _ _ => rfl
  case before => exact .inl (by rw [hi,hwalk.before])
  case after => exact .inl hwalk.after
  case agrees => exact hwalk.agrees _ hagrees
  case away =>
    refine fun _ => h.away i i ?_
    rw [hi,hwalk.before]
    nofun
  case there =>
    rw [hwalk.after]
    nofun
  case positive =>
    intro r need q hsearch
    obtain ⟨q',hq'⟩ := hwalk.searches r need q hsearch
    exact h.positive i r need q' (hi.trans hq')
  case listed => exact hlisted
  case storing => exact hstoring
  case stored => exact .inr rfl
  case signalled =>
    rw [hi,hwalk.unsaid]
    rfl
  case acquired =>
    rw [hi,hwalk.need]
    rfl

/-- What holds of a step of the producer of a sub-queue. -/
structure AtProducer (s : State ι α) (i : ι) (c' : Control ι) (u : SubqueueClaims.State ι α) :
    Prop where
  /-- The threads there stay where they are. -/
  phase : u.phase=(s.inner i).phase
  /-- Nothing is delivered. -/
  delivered : u.delivered=(s.inner i).delivered
  /-- The producer is in no other sub-queue. -/
  place : c'.place=none
  /-- It needs no element. -/
  need : c'.need=0
  /-- It is outside the semaphore. -/
  agrees : Agrees c' .outside
  /-- It does not search. -/
  search : ∀ r need q,c'≠.searching r need q
  /-- The elements published. -/
  tail : u.tail=(s.inner i).tail+c'.unsaid

/-- A producer works on its own sub-queue. -/
theorem moved_produce (h : Matched s) {c' : Control ι} (hi : s.control i=.storing)
    (hproducer : AtProducer s i c' u) : Moved s ((s.put i u).goto i c') i i c' .outside u := by
  obtain ⟨hphase,hdelivered,hplace,hneed,hagrees,hsearch,htail⟩ := hproducer
  have hlisted : i∈s.producers := by
    by_contra hnot
    exact (h.listed i hnot).1 hi
  have houtside : s.sema.phase i=.outside := by
    have hagrees := h.agrees i
    rwa [hi] at hagrees
  constructor
  case control => rfl
  case phase =>
    rw [←houtside]
    exact (Function.update_eq_self _ _).symm
  case inner => rfl
  case inside => exact fun j _ => by rw [hphase]
  case before => exact .inl (by rw [hi]; rfl)
  case after => exact .inl hplace
  case agrees => exact hagrees
  case away =>
    intro _
    rw [hphase]
    refine h.away i i ?_
    rw [hi]
    nofun
  case there =>
    rw [hplace]
    nofun
  case positive => exact fun r need q hc => False.elim (hsearch r need q hc)
  case listed => exact fun _ hj => hj
  case storing => exact fun _ => hlisted
  case stored => exact .inl hlisted
  case signalled =>
    rw [hi,houtside]
    change s.sema.signalled+_+0+_=s.sema.signalled+0+0+_
    omega
  case acquired =>
    rw [hi,hdelivered,hneed]
    rfl

/-- What holds of a step inside the semaphore. -/
structure AtSema (s : State ι α) (i : ι) (c' : Control ι) (y : LightweightSemaphore.Phase)
    (v : LightweightSemaphore.State ι) : Prop where
  /-- The thread goes on there. -/
  phase : v.phase=Function.update s.sema.phase i y
  /-- It was in no sub-queue. -/
  before : (s.control i).place=none
  /-- And is in none. -/
  after : c'.place=none
  /-- It does not store elements now. -/
  storing : c'≠.storing
  /-- What it does agrees with its phase in the semaphore. -/
  agrees : Agrees c' y
  /-- A search is for one element at least. -/
  positive : ∀ r need q,c'=.searching r need q → 0 < need
  /-- The units given. -/
  signalled : v.signalled+c'.unsaid+y.unsaid= s.sema.signalled+(s.control i).unsaid+(s.sema.phase
    i).unsaid
  /-- The units taken. -/
  acquired : v.acquired+(s.control i).need=s.sema.acquired+c'.need

/-- A thread takes a step in the semaphore. -/
theorem moved_sema (h : Matched s) {c' : Control ι} {v : LightweightSemaphore.State ι}
    (hsema : AtSema s i c' y v) : Moved s {s.goto i c' with sema := v} i i c' y (s.inner i) := by
  obtain ⟨hphase,hbefore,hafter,hstoring,hagrees,hpositive,hsignalled,hacquired⟩ := hsema
  constructor
  case control => rfl
  case phase => exact hphase
  case inner => exact (Function.update_eq_self _ _).symm
  case inside => exact fun _ _ => rfl
  case before => exact .inl hbefore
  case after => exact .inl hafter
  case agrees => exact hagrees
  case away =>
    refine fun _ => h.away i i ?_
    rw [hbefore]
    nofun
  case there =>
    rw [hafter]
    nofun
  case positive => exact hpositive
  case listed => exact fun _ hj => hj
  case storing => exact fun hc => False.elim (hstoring hc)
  case stored => exact .inr rfl
  case signalled =>
    change v.signalled+_+_+_=_
    omega
  case acquired =>
    change v.acquired+_+_=_
    omega

/-- What holds of a step of a search inside a sub-queue. -/
structure AtInner (s : State ι α) (i p : ι) (c' : Control ι) (need : ℕ) (q : Search ι)
    (u : SubqueueClaims.State ι α) : Prop where
  /-- The other threads there stay where they are. -/
  inside : ∀ j,j≠i → u.phase j=(s.inner p).phase j
  /-- The thread was in this sub-queue or in none. -/
  before : q.place=none ∨ q.place=some p
  /-- And so it is. -/
  after : c'.place=none ∨ c'.place=some p
  /-- It is outside the semaphore. -/
  agrees : Agrees c' .outside
  /-- If it has left the sub-queue it is idle there. -/
  away : c'.place=none → u.phase i=.idle
  /-- If not, it takes no more than it still needs. -/
  there : c'.place=some p → u.phase i≠.idle ∧ (u.phase i).reach ≤ c'.need
  /-- A search is for one element at least. -/
  positive : ∀ r need q,c'=.searching r need q → 0 < need
  /-- It does not store elements. -/
  storing : c'≠.storing
  /-- No element is published. -/
  tail : u.tail=(s.inner p).tail
  /-- No unit is still to be given. -/
  unsaid : c'.unsaid=0
  /-- It needs as many fewer as were delivered. -/
  need : need+(s.inner p).delivered.length=c'.need+u.delivered.length

/-- A thread takes a step in a sub-queue. -/
theorem moved_inner (h : Matched s) {c' : Control ι} {r : Request} {need : ℕ} {q : Search ι}
    (hi : s.control i=.searching r need q) (hinner : AtInner s i p c' need q u) :
    Moved s ((s.put p u).goto i c') i p c' .outside u := by
  obtain ⟨hinside,hbefore,hafter,hagrees,haway,hthere,hpositive,hstoring,htail,hunsaid,
    hneed⟩ := hinner
  have houtside : s.sema.phase i=.outside := by
    have hagrees := h.agrees i
    rwa [hi] at hagrees
  constructor
  case control => rfl
  case phase =>
    rw [←houtside]
    exact (Function.update_eq_self _ _).symm
  case inner => rfl
  case inside => exact hinside
  case before => rwa [hi]
  case after => exact hafter
  case agrees => exact hagrees
  case away => exact haway
  case there => exact hthere
  case positive => exact hpositive
  case listed => exact fun _ hj => hj
  case storing => exact fun hc => False.elim (hstoring hc)
  case stored => exact .inr htail
  case signalled =>
    rw [hi,houtside,htail,hunsaid]
    rfl
  case acquired =>
    rw [hi]
    change s.sema.acquired+(need : ℤ)+_=_
    omega

end Moves

/-- The parts of the queue are in states which their own machines reach. -/
structure Whole (spins w block : ℕ) (s : State ι α) : Prop where
  /-- Units and elements match. -/
  matched : Matched s
  /-- The semaphore. -/
  sema : ∃ acts,Reaches (LightweightSemaphore.next spins) Unrestricted (.start 0) acts s.sema
  /-- Every sub-queue. -/
  inner : ∀ p,∃ acts,
    Reaches (SubqueueClaims.next w block) (SubqueueClaims.Recent w) .start acts (s.inner p)

section Steps

variable {spins w block : ℕ} {s s' : State ι α} {a : Act ι α}

/-- A step of one sub-queue leaves all of them reachable. -/
theorem Whole.inner_step (h : Whole spins w block s) {p : ι} {b : SubqueueClaims.Act ι α}
    {u : SubqueueClaims.State ι α} (hrecent : SubqueueClaims.Recent w (s.inner p) b)
    (hu : SubqueueClaims.next w block (s.inner p) b=some u) (p' : ι) :
    ∃ acts,Reaches (SubqueueClaims.next w block) (SubqueueClaims.Recent w) .start acts
      (Function.update s.inner p u p') := by
  by_cases hp : p'=p
  · subst hp
    rw [Function.update_self]
    obtain ⟨acts,hacts⟩ := h.inner p'
    exact ⟨_,hacts.step b hrecent hu⟩
  · rw [Function.update_of_ne hp]
    exact h.inner p'

/-- A step of the semaphore leaves it reachable. -/
theorem Whole.sema_step (h : Whole spins w block s) {b : LightweightSemaphore.Act ι}
    {v : LightweightSemaphore.State ι} (hv : LightweightSemaphore.next spins s.sema b=some v) :
    ∃ acts,Reaches (LightweightSemaphore.next spins) Unrestricted (.start 0) acts v := by
  obtain ⟨acts,hacts⟩ := h.sema
  exact ⟨_,hacts.step b trivial hv⟩

/-- Every step is a step of the parts. -/
theorem parts_step (h : Whole spins w block s) (htimely : Timely w s a)
    (hn : next spins w block s a=some s') :
    (∃ acts,Reaches (LightweightSemaphore.next spins) Unrestricted (.start 0) acts s'.sema) ∧
      ∀ p,∃ acts,
        Reaches (SubqueueClaims.next w block) (SubqueueClaims.Recent w) .start acts
          (s'.inner p) := by
  cases next_effect hn with
  | enqueues => exact ⟨h.sema,h.inner⟩
  | requests => exact ⟨h.sema,h.inner⟩
  | walks => exact ⟨h.sema,h.inner⟩
  | stores i b u hi hstores hu =>
    refine ⟨h.sema,h.inner_step ?_ hu⟩
    cases b <;> first | exact Nat.zero_le _ | cases hstores
  | publishes i u hi hu => exact ⟨h.sema,h.inner_step (Nat.zero_le _) hu⟩
  | fails i u hi hu => exact ⟨h.sema,h.inner_step (Nat.zero_le _) hu⟩
  | signals i count v hi hv => exact ⟨h.sema_step hv,h.inner⟩
  | asks i r v hi hv => exact ⟨h.sema_step hv,h.inner⟩
  | gives b v hbegins hi hv => exact ⟨h.sema_step hv,h.inner⟩
  | takes b r v hbegins hi hv hinside => exact ⟨h.sema_step hv,h.inner⟩
  | gets b r v receipt hbegins hi hv houtside hreceipt => exact ⟨h.sema_step hv,h.inner⟩
  | enters a r need q q' p u ha hi hq hq' hu => exact ⟨h.sema,h.inner_step (Nat.zero_le _) hu⟩
  | dequeues i b r need q p u hconsumer hbegins hi hp hu =>
    refine ⟨h.sema,h.inner_step ?_ hu⟩
    have hplace : (s.control i).place=some p := by rw [hi]; exact hp
    simp only [Timely,lag,hplace] at htimely
    exact htimely

omit [Fintype ι] in
/-- A producer's step before it publishes. -/
theorem stores_spec {u u' : SubqueueClaims.State ι α} {b : SubqueueClaims.Act ι α}
    (hstores : stores b=true) (hu : SubqueueClaims.next w block u b=some u') :
    u'.phase=u.phase ∧ u'.delivered=u.delivered ∧ u'.tail=u.tail := by
  cases b with
  | reserve head =>
    simp only [SubqueueClaims.next] at hu
    split_ifs at hu <;> cases hu <;> exact ⟨rfl,rfl,rfl⟩
  | construct x =>
    simp only [SubqueueClaims.next] at hu
    split_ifs at hu
    cases hu
    exact ⟨rfl,rfl,rfl⟩
  | _ => cases hstores

/-- No thread takes and gives at the same time. -/
theorem not_takes_of_gives {y : LightweightSemaphore.Phase} (h : y.gives=true) : y.takes≠true := by
  cases y <;> first | exact Bool.false_ne_true | cases h

/-- Whoever takes has nothing to signal. -/
theorem unsaid_of_takes {y : LightweightSemaphore.Phase} (h : y.takes=true) : y.unsaid=0 := by
  cases y <;> first | rfl | cases h

/-- A step inside `signal`. -/
theorem moved_gives (h : Matched s) {b : LightweightSemaphore.Act ι}
    {v : LightweightSemaphore.State ι} (hbegins : b.begins=false)
    (hi : s.control b.thread=.signalling) (hv : LightweightSemaphore.next spins s.sema b=some v) :
    ∃ c y u,Moved s {s.goto b.thread
      (if v.phase b.thread=.outside then .idle else .signalling) with sema := v}
      b.thread b.thread c y u := by
  have hagrees := h.agrees b.thread
  rw [hi] at hagrees
  cases LightweightSemaphore.next_progress hbegins hv with
  | takes q htakes => exact False.elim (not_takes_of_gives hagrees htakes)
  | returns c result htakes => exact False.elim (not_takes_of_gives hagrees htakes)
  | gives q _ hq hunsaid hphase hsignalled hacquired _ =>
    have hnow : v.phase b.thread=q := by rw [hphase,Function.update_self]
    rw [hnow]
    split
    · rename_i houtside
      refine ⟨_,_,_,moved_sema h {
          phase := hphase
          before := by rw [hi]; rfl
          after := rfl
          storing := nofun
          agrees := houtside
          positive := nofun
          signalled := ?_
          acquired := ?_}⟩
      · rw [hi]
        simp only [Control.unsaid]
        omega
      · rw [hi,hacquired]
        rfl
    · rename_i hinside
      refine ⟨_,_,_,moved_sema h {
          phase := hphase
          before := by rw [hi]; rfl
          after := rfl
          storing := nofun
          agrees := hq.resolve_right hinside
          positive := nofun
          signalled := ?_
          acquired := ?_}⟩
      · rw [hi]
        simp only [Control.unsaid]
        omega
      · rw [hi,hacquired]

/-- A step inside a call which takes units. -/
theorem moved_takes (h : Matched s) {b : LightweightSemaphore.Act ι} {r : Request}
    {v : LightweightSemaphore.State ι} (hbegins : b.begins=false)
    (hi : s.control b.thread=.acquiring r) (hv : LightweightSemaphore.next spins s.sema b=some v)
    (hinside : v.phase b.thread≠.outside) :
    ∃ c y u,Moved s {s with sema := v} b.thread b.thread c y u := by
  have hagrees := h.agrees b.thread
  rw [hi] at hagrees
  cases LightweightSemaphore.next_progress hbegins hv with
  | takes q _ hq _ hphase hsignalled hacquired _ =>
    have hsame : ({s.goto b.thread (.acquiring r) with sema := v} : State ι α)=
        {s with sema := v} := by
      rw [State.goto,←hi,Function.update_eq_self]
    rw [←hsame]
    refine ⟨_,_,_,moved_sema h {
        phase := hphase
        before := by rw [hi]; rfl
        after := rfl
        storing := nofun
        agrees := hq
        positive := nofun
        signalled := ?_
        acquired := ?_}⟩
    · rw [hi,hsignalled,unsaid_of_takes hq,unsaid_of_takes hagrees]
    · rw [hi,hacquired]
  | returns c result htakes _ hphase =>
    rw [hphase,Function.update_self] at hinside
    exact False.elim (hinside rfl)
  | gives q hgives => exact False.elim (not_takes_of_gives hgives hagrees)

/-- A consumer gets its units. -/
theorem moved_gets (h : Matched s) {b : LightweightSemaphore.Act ι} {r : Request}
    {v : LightweightSemaphore.State ι} {receipt : LightweightSemaphore.Receipt ι}
    (hbegins : b.begins=false) (hi : s.control b.thread=.acquiring r)
    (hv : LightweightSemaphore.next spins s.sema b=some v) (houtside : v.phase b.thread=.outside)
    (hreceipt : v.returned.head?=some receipt) (hvalid : ∀ x∈v.returned,0 ≤ x.result) :
    ∃ c y u,Moved s {s.goto b.thread (afterAcquire r receipt.result.toNat) with sema := v}
      b.thread b.thread c y u := by
  have hagrees := h.agrees b.thread
  rw [hi] at hagrees
  cases LightweightSemaphore.next_progress hbegins hv with
  | takes q _ hq _ hphase =>
    rw [hphase,Function.update_self] at houtside
    rw [houtside] at hq
    cases hq
  | gives q hgives => exact False.elim (not_takes_of_gives hgives hagrees)
  | returns c result htakes _ hphase hsignalled hacquired hreturned =>
    rw [hreturned,List.head?_cons] at hreceipt
    cases hreceipt
    have hresult : 0 ≤ result := by
      rw [hreturned] at hvalid
      exact hvalid _ List.mem_cons_self
    have hsilent := unsaid_of_takes hagrees
    have hcontrol : (afterAcquire r result.toNat : Control ι).place=none ∧
        (afterAcquire r result.toNat : Control ι)≠.storing ∧
        Agrees (afterAcquire r result.toNat : Control ι) .outside ∧
        (afterAcquire r result.toNat : Control ι).unsaid=0 ∧
        (afterAcquire r result.toNat : Control ι).need=result.toNat ∧
        ∀ r' need q,(afterAcquire r result.toNat : Control ι)=.searching r' need q → 0 < need := by
      unfold afterAcquire
      split_ifs with hzero hrepeats
      · exact ⟨rfl,nofun,rfl,rfl,hzero.symm,nofun⟩
      · exact ⟨rfl,nofun,rfl,rfl,hzero.symm,nofun⟩
      · refine ⟨rfl,nofun,rfl,rfl,rfl,fun r' need q heq => ?_⟩
        cases heq
        omega
    obtain ⟨hplace,hstoring,houtside',hunsaid,hneed,hpositive⟩ := hcontrol
    refine ⟨_,_,_,moved_sema h {
        phase := hphase
        before := by rw [hi]; rfl
        after := hplace
        storing := hstoring
        agrees := houtside'
        positive := hpositive
        signalled := ?_
        acquired := ?_}⟩
    · rw [hi,hsignalled,hsilent,hunsaid]
      rfl
    · rw [hi,hacquired,hneed]
      simp only [Control.need]
      omega

omit [Fintype ι] in
/-- A call asks for no more elements than there are units. -/
theorem dequeue_limit_le (r : Request) {need : ℕ} (h : 0 < need) :
    (r.dequeue need).limit ≤ need := by
  unfold Request.dequeue
  split
  · exact h
  · exact le_rfl

/-- A consumer begins with a sub-queue. -/
theorem moved_enters (h : Matched s) {i p : ι} {r : Request} {need : ℕ} {q q' : Search ι}
    {u : SubqueueClaims.State ι α} (hi : s.control i=.searching r need q) (hq : q.place=none)
    (hq' : q'.place=some p)
    (hu : SubqueueClaims.next w block (s.inner p) (.call i (r.dequeue need))=some u) :
    ∃ c y u',Moved s ((s.put p u).goto i (.searching r need q')) i p c y u' := by
  simp only [SubqueueClaims.next] at hu
  split_ifs at hu
  cases hu
  have hpos := h.positive i r need q hi
  have hlimit := dequeue_limit_le r hpos
  refine ⟨_,_,_,moved_inner h hi {
      inside := fun j hj => Function.update_of_ne hj _ _
      before := .inl hq
      after := .inr hq'
      agrees := rfl
      away := ?_
      there := fun _ => ?_
      positive := ?_
      storing := by intro hc; cases hc
      tail := rfl
      unsaid := rfl
      need := rfl}⟩
  · intro hnone
    rw [show (Control.searching r need q').place=q'.place from rfl,hq'] at hnone
    cases hnone
  · rw [SubqueueClaims.State.goto_phase]
    exact ⟨fun hc => SubqueueClaims.Phase.noConfusion hc,hlimit⟩
  · intro r' need' q'' heq
    cases heq
    exact hpos

omit [DecidableEq ι] [Fintype ι] in
/-- Past a sub-queue the search is in none. -/
theorem onward_place (q : Search ι) : q.onward.place=none := by
  cases q <;> rfl

/-- A consumer takes a step in a sub-queue. -/
theorem moved_dequeues (h : Matched s) {i p : ι} {r : Request} {need : ℕ} {q : Search ι}
    {z : SubqueueClaims.Phase} {u : SubqueueClaims.State ι α} (hi : s.control i=.searching r need q)
    (hp : q.place=some p) (hu : SubqueueClaims.Progress (s.inner p) u i z)
    (halive : (u.phase i).Alive) :
    ∃ c y u',Moved s ((s.put p u).goto i
      (if u.phase i=.idle then
        afterDequeue r (need-(u.delivered.length-(s.inner p).delivered.length)) q
      else .searching r (need-(u.delivered.length-(s.inner p).delivered.length)) q))
        i p c y u' := by
  obtain ⟨-,hreach⟩ := h.there i p (by rw [hi]; exact hp)
  rw [hi] at hreach
  have hneed : ((s.inner p).phase i).reach ≤ need := hreach
  have hz : u.phase i=z := by rw [hu.phase,Function.update_self]
  have hwithin := hu.reach
  have hgrown := SubqueueClaims.length_le_of_received hu.delivered
  rw [←hz] at hwithin
  generalize hleft : need-(u.delivered.length-(s.inner p).delivered.length)=left
  have hinside : ∀ j,j≠i → u.phase j=(s.inner p).phase j := by
    intro j hj
    rw [hu.phase,Function.update_of_ne hj]
  split
  · rename_i hidle
    have hcontrol : (afterDequeue r left q).place=none ∧ (afterDequeue r left q)≠.storing ∧
        Agrees (afterDequeue r left q) .outside ∧ (afterDequeue r left q).unsaid=0 ∧
        (afterDequeue r left q).need=left ∧
        ∀ r' need' q',afterDequeue r left q=.searching r' need' q' → 0 < need' := by
      unfold afterDequeue
      split_ifs with hzero
      · exact ⟨rfl,nofun,rfl,rfl,hzero.symm,nofun⟩
      · refine ⟨onward_place q,nofun,rfl,rfl,rfl,fun r' need' q' heq => ?_⟩
        cases heq
        omega
    obtain ⟨hplace,hstoring,houtside,hunsaid,hleft',hpositive⟩ := hcontrol
    refine ⟨_,_,_,moved_inner h hi {
        inside := hinside
        before := .inr hp
        after := .inl hplace
        agrees := houtside
        away := fun _ => hidle
        there := ?_
        positive := hpositive
        storing := hstoring
        tail := hu.tail
        unsaid := hunsaid
        need := ?_}⟩
    · rw [hplace]
      nofun
    · rw [hleft']
      omega
  · rename_i hbusy
    have hpos := halive.resolve_left hbusy
    refine ⟨_,_,_,moved_inner h hi {
        inside := hinside
        before := .inr hp
        after := .inr hp
        agrees := rfl
        away := ?_
        there := fun _ => ⟨hbusy,?_⟩
        positive := ?_
        storing := nofun
        tail := hu.tail
        unsaid := rfl
        need := ?_}⟩
    · intro hnone
      rw [show (Control.searching r left q).place=q.place from rfl,hp] at hnone
      cases hnone
    · change _ ≤ left
      omega
    · intro r' need' q' heq
      cases heq
      omega
    · change _=left+_
      omega

/-- Every step moves one thread and keeps the accounts. -/
theorem next_moved (hcard : Fintype.card ι < 2147483648) (hw : 0 < w) (hblock : 0 < block)
    (hfits : block ≤ half w) (h : Whole spins w block s) (htimely : Timely w s a)
    (hn : next spins w block s a=some s') : ∃ i p c y u,Moved s s' i p c y u := by
  have hmatched := h.matched
  have hparts := parts_step h htimely hn
  cases next_effect hn with
  | enqueues i list hi hlisted hstoring =>
    exact ⟨i,i,_,_,_,moved_walk hmatched hi ⟨rfl,rfl,rfl,rfl,fun _ hy => hy,nofun⟩ hlisted
      fun _ => hstoring⟩
  | requests i r hi =>
    exact ⟨i,i,_,_,_,moved_walk hmatched hi ⟨rfl,rfl,rfl,rfl,fun _ hy => hy,nofun⟩
      (fun _ hj => hj) nofun⟩
  | walks a r need q q' ha hi hq hq' =>
    exact ⟨_,_,_,_,_,moved_walk hmatched hi (walk_search hq hq') (fun _ hj => hj) nofun⟩
  | stores i b u hi hstores hu =>
    obtain ⟨hphase,hdelivered,htail⟩ := stores_spec hstores hu
    have hsame : (s.put i u).goto i .storing=s.put i u := by
      rw [State.goto,←hi]
      exact congrArg (fun control => {s.put i u with control := control})
        (Function.update_eq_self _ _)
    rw [←hsame]
    exact ⟨i,i,_,_,_,moved_produce hmatched hi {
        phase := hphase
        delivered := hdelivered
        place := rfl
        need := rfl
        agrees := rfl
        search := nofun
        tail := htail}⟩
  | publishes i u hi hu =>
    obtain ⟨acts,hacts⟩ := h.inner i
    obtain ⟨⟨fate,hbooked⟩,-⟩ := SubqueueClaims.invariants_of_reaches hw hblock hfits hacts
    have hpublished := hbooked.published
    cases hu
    refine ⟨i,i,_,_,_,moved_produce hmatched hi {
        phase := rfl
        delivered := rfl
        place := rfl
        need := rfl
        agrees := rfl
        search := nofun
        tail := ?_}⟩
    simp only [Control.unsaid]
    omega
  | fails i u hi hu =>
    cases hu
    exact ⟨i,i,_,_,_,moved_produce hmatched hi {
        phase := rfl
        delivered := rfl
        place := rfl
        need := rfl
        agrees := rfl
        search := nofun
        tail := rfl}⟩
  | signals i count v hi hv =>
    have hagrees := hmatched.agrees i
    rw [hi] at hagrees
    simp only [LightweightSemaphore.next] at hv
    split_ifs at hv
    cases hv
    refine ⟨i,i,_,_,_,moved_sema hmatched {
        phase := rfl
        before := by rw [hi]; rfl
        after := rfl
        storing := by intro hc; cases hc
        agrees := rfl
        positive := by intro _ _ _ hc; cases hc
        signalled := ?_
        acquired := ?_}⟩
    · rw [hi,show s.sema.phase i=.outside from hagrees]
      simp only [Control.unsaid,LightweightSemaphore.Phase.unsaid,LightweightSemaphore.State.goto]
      omega
    · rw [hi]
      rfl
  | asks i r v hi hv =>
    have hagrees := hmatched.agrees i
    rw [hi] at hagrees
    simp only [LightweightSemaphore.next] at hv
    split_ifs at hv
    cases hv
    refine ⟨i,i,_,_,_,moved_sema hmatched {
        phase := rfl
        before := by rw [hi]; rfl
        after := rfl
        storing := by intro hc; cases hc
        agrees := rfl
        positive := by intro _ _ _ hc; cases hc
        signalled := ?_
        acquired := ?_}⟩
    · rw [hi,show s.sema.phase i=.outside from hagrees]
      rfl
    · rw [hi]
      rfl
  | gives b v hbegins hi hv => exact ⟨_,_,moved_gives hmatched hbegins hi hv⟩
  | takes b r v hbegins hi hv hinside => exact ⟨_,_,moved_takes hmatched hbegins hi hv hinside⟩
  | gets b r v receipt hbegins hi hv houtside hreceipt =>
    obtain ⟨acts,hacts⟩ := hparts.1
    have hsound := LightweightSemaphore.sound_of_reaches hcard le_rfl hacts
    exact ⟨_,_,moved_gets hmatched hbegins hi hv houtside hreceipt
      fun x hx => (hsound.results x hx).nonneg⟩
  | enters a r need q q' p u ha hi hq hq' hu => exact ⟨_,_,moved_enters hmatched hi hq hq' hu⟩
  | dequeues i b r need q p u hconsumer hbegins hi hp hu =>
    obtain ⟨acts,hacts⟩ := h.inner p
    obtain ⟨⟨fate,hbooked⟩,-⟩ := SubqueueClaims.invariants_of_reaches hw hblock hfits hacts
    obtain ⟨z,hz⟩ := SubqueueClaims.next_progress hbooked hconsumer hbegins hu
    obtain ⟨acts',hacts'⟩ := hparts.2 p
    have hnow : ((s.put p u).inner p)=u := Function.update_self _ _ _
    obtain ⟨-,-,-,halive⟩ := SubqueueClaims.invariants_of_reaches hw hblock hfits hacts'
    refine ⟨_,_,moved_dequeues hmatched hi hp hz ?_⟩
    rw [←hnow]
    exact halive i

/-- Every step keeps the invariant of the queue. -/
theorem whole_step (hcard : Fintype.card ι < 2147483648) (hw : 0 < w) (hblock : 0 < block)
    (hfits : block ≤ half w) (h : Whole spins w block s) (htimely : Timely w s a)
    (hn : next spins w block s a=some s') : Whole spins w block s' := by
  obtain ⟨i,p,c,y,u,hmoved⟩ := next_moved hcard hw hblock hfits h htimely hn
  obtain ⟨hsema,hinner⟩ := parts_step h htimely hn
  exact ⟨matched_moved h.matched hmoved,hsema,hinner⟩

/-- A new queue. -/
theorem whole_start : Whole spins w block (.start : State ι α) :=
  ⟨matched_start,⟨[],.start⟩,fun _ => ⟨[],.start⟩⟩

/-- The invariant holds in every state of every run. -/
theorem whole_of_reaches {acts : List (Act ι α)} (hcard : Fintype.card ι < 2147483648) (hw : 0 < w)
    (hblock : 0 < block) (hfits : block ≤ half w)
    (h : Reaches (next spins w block) (Timely w) .start acts s) : Whole spins w block s :=
  h.invariant whole_start fun hwhole htimely hn =>
    whole_step hcard hw hblock hfits hwhole htimely hn

end Steps

end Totals

end FastEventSystem.BlockingQueue
