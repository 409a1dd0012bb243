import FastEventSystem.GuardedRuns
import FastEventSystem.PartyTotals
import Mathlib.Algebra.Order.Ring.Int

/-!
# The semaphore inside the vendored queue

`BlockingConcurrentQueue` counts its elements with a `LightweightSemaphore`: an
atomic `m_count`, which is negative while threads wait, and a semaphore of the
operating system, `m_sema`, on which they sleep. Any number of threads are
inside `tryWait`, `wait`, `tryWaitMany`, `waitMany` and `signal`, with or
without a timeout, and interleave between any two atomic operations.

A relaxed load may return an outdated value, a weak exchange may fail although
its expectation was met, and a timed wait may end at any moment. The number of
turns of the spinning loop is a parameter; the source has 10000. The count is
an integer here and a signed word of 64 bits in the source; below `2^63` units
in all it is proved never to leave that range.
-/

namespace FastEventSystem.LightweightSemaphore

open GuardedRuns PartyTotals

/-- A call which takes units. A negative timeout is none. -/
inductive Call where
  /-- `tryWait()`. -/
  | tryWait
  /-- `wait(timeout_usecs)`, and `wait()` with -1. -/
  | wait (timeout : ℤ)
  /-- `tryWaitMany(max)`. -/
  | tryWaitMany (max : ℤ)
  /-- `waitMany(max, timeout_usecs)`, and `waitMany(max)` with -1. -/
  | waitMany (max timeout : ℤ)
  deriving DecidableEq

/-- The most units a call takes. -/
def Call.limit : Call → ℤ
  | .tryWait | .wait _ => 1
  | .tryWaitMany max | .waitMany max _ => max

/-- Whether a call without success goes on to spin. -/
def Call.blocks : Call → Bool
  | .wait _ | .waitMany _ _ => true
  | _ => false

/-- The timeout in microseconds. -/
def Call.timeout : Call → ℤ
  | .wait timeout | .waitMany _ timeout => timeout
  | _ => -1

/-- What an exchange which takes units stores in place of the old count. -/
def Call.newCount (c : Call) (limit old : ℤ) : ℤ :=
  match c with
  | .tryWait | .wait _ => old-1
  | .tryWaitMany _ | .waitMany _ _ => if old > limit then old-limit else 0

/-- Where a thread stands. -/
inductive Phase where
  /-- In no call. -/
  | outside
  /-- Before the load of `tryWait` or `tryWaitMany`, with the units which the
  call has already and those it still may take. -/
  | trying (c : Call) (got limit : ℤ)
  /-- At the loop of `tryWait` or `tryWaitMany` with `oldCount`. -/
  | tried (c : Call) (got limit old : ℤ)
  /-- In the spinning loop, before its next turn. -/
  | spinning (c : Call) (spin : ℕ)
  /-- In a turn of the spinning loop with `oldCount`. -/
  | spun (c : Call) (spin : ℕ) (old : ℤ)
  /-- In `m_sema.wait` or `m_sema.timed_wait`. -/
  | sleeping (c : Call)
  /-- Timed out, before the load of the loop which gives the place back. -/
  | recovering (c : Call)
  /-- In that loop with `oldCount`. -/
  | recovered (c : Call) (old : ℤ)
  /-- In `signal`, before the addition. -/
  | signalling (n : ℤ)
  /-- In `m_sema.signal`, with so many posts to go. -/
  | posting (n : ℕ)
  deriving DecidableEq

/-- The thread has taken its place among the waiting ones and still has it. -/
def Phase.asleep : Phase → ℤ
  | .sleeping _ | .recovering _ | .recovered _ _ => 1
  | _ => 0

/-- Units which the thread's call has and has not returned yet. -/
def Phase.gained : Phase → ℤ
  | .trying _ got _ | .tried _ got _ _ => got
  | _ => 0

/-- Posts which the thread still owes. -/
def Phase.posts : Phase → ℤ
  | .posting n => n
  | _ => 0

/-- A call which returned. -/
structure Receipt (ι : Type*) where
  /-- The thread. -/
  thread : ι
  /-- The call. -/
  call : Call
  /-- The units it took. -/
  result : ℤ
  deriving DecidableEq

/-- The semaphore, all threads and the histories. -/
structure State (ι : Type*) where
  /-- The field `m_count`. -/
  count : ℤ
  /-- History of its earlier values. -/
  past : List ℤ
  /-- The count of `m_sema`. -/
  kernel : ℕ
  /-- Every thread's position. -/
  phase : ι → Phase
  /-- History of the units given by `signal`. -/
  signalled : ℤ
  /-- History of the units taken by calls which returned. -/
  acquired : ℤ
  /-- History of returned calls. -/
  returned : List (Receipt ι)

variable {ι : Type*}

/-- A new semaphore and nobody inside. -/
def State.start (initial : ℤ) : State ι := ⟨initial,[],0,fun _ => .outside,0,0,[]⟩

/-- One step of a thread. -/
inductive Act (ι : Type*) where
  /-- Begin a call which takes units. -/
  | call (i : ι) (c : Call)
  /-- `m_count.load`, which returns this value. -/
  | load (i : ι) (v : ℤ)
  /-- A compare-and-exchange which succeeds. -/
  | exchange (i : ι)
  /-- A compare-and-exchange which fails and loads this value. -/
  | exchangeFails (i : ι) (v : ℤ)
  /-- The loaded count is not positive. -/
  | declines (i : ι)
  /-- `m_count.fetch_sub(1)` after the spinning loop. -/
  | subtract (i : ι)
  /-- `m_sema.wait` or `m_sema.timed_wait` returns true. -/
  | pass (i : ι)
  /-- `m_sema.timed_wait` returns false. -/
  | timesOut (i : ι)
  /-- `m_sema.try_wait` in the loop which gives the place back. -/
  | tryKernel (i : ι)
  /-- Begin `signal(count)`. -/
  | signal (i : ι) (n : ℤ)
  /-- `m_count.fetch_add(count)`. -/
  | add (i : ι)
  /-- One `sem_post`. -/
  | post (i : ι)

/-- The value was in `m_count` at some time. -/
def State.Seen (s : State ι) (v : ℤ) : Prop := v=s.count ∨ v∈s.past

instance (s : State ι) (v : ℤ) : Decidable (s.Seen v) := inferInstanceAs (Decidable (_∨_))

/-- Write `m_count`. -/
def State.store (s : State ι) (v : ℤ) : State ι := {s with count := v,past := s.count::s.past}

/-- `-oldCount < count ? -oldCount : count` in `signal`. -/
def toRelease (old n : ℤ) : ℤ := if -old < n then -old else n

/-- `(int)toRelease`, as the number of turns of `while (count-- > 0)`. -/
def posts (released : ℤ) : ℕ := (Int.bmod released 4294967296).toNat

variable [DecidableEq ι]

/-- Move one thread. -/
def State.goto (s : State ι) (i : ι) (p : Phase) : State ι :=
  {s with phase := Function.update s.phase i p}

/-- Return from a call which takes units. -/
def State.returns (s : State ι) (i : ι) (c : Call) (result : ℤ) : State ι :=
  {s.goto i .outside with
    acquired := s.acquired+result
    returned := ⟨i,c,result⟩::s.returned}

/-- One unit was taken the slow way: `1 + tryWaitMany(max - 1)`, or just one. -/
def State.obtains (s : State ι) (i : ι) (c : Call) : State ι :=
  if c.limit > 1 then s.goto i (.trying c 1 (c.limit-1)) else s.returns i c 1

/-- Perform one step. -/
def next (spins : ℕ) (s : State ι) : Act ι → Option (State ι)
  | .call i c =>
    if s.phase i=.outside ∧ 0 ≤ c.limit then some (s.goto i (.trying c 0 c.limit)) else none
  | .load i v =>
    if s.Seen v then
      match s.phase i with
      | .trying c got limit => some (s.goto i (.tried c got limit v))
      | .spinning c (spin+1) => some (s.goto i (.spun c spin v))
      | .recovering c => some (s.goto i (.recovered c v))
      | _ => none
    else none
  | .exchange i =>
    match s.phase i with
    | .tried c got limit old =>
      if old > 0 ∧ s.count=old then
        some ((s.store (c.newCount limit old)).returns i c (got+(old-c.newCount limit old)))
      else none
    | .spun c _ old =>
      if old > 0 ∧ s.count=old then
        some ((s.store (c.newCount c.limit old)).returns i c (old-c.newCount c.limit old))
      else none
    | .recovered c old =>
      if old < 0 ∧ s.count=old then some ((s.store (old+1)).returns i c 0) else none
    | _ => none
  | .exchangeFails i v =>
    if s.Seen v then
      match s.phase i with
      | .tried c got limit old => if old > 0 then some (s.goto i (.tried c got limit v)) else none
      | .spun c spin old => if old > 0 ∧ v≠old then some (s.goto i (.spinning c spin)) else none
      | .recovered c old => if old < 0 ∧ v≠old then some (s.goto i (.recovering c)) else none
      | _ => none
    else none
  | .declines i =>
    match s.phase i with
    | .tried c got limit old =>
      if old ≤ 0 then
        if got=0 ∧ c.blocks=true ∧ limit > 0 then some (s.goto i (.spinning c spins))
        else some (s.returns i c got)
      else none
    | .spun c spin old => if old ≤ 0 then some (s.goto i (.spinning c spin)) else none
    | _ => none
  | .subtract i =>
    match s.phase i with
    | .spinning c 0 =>
      if s.count > 0 then some ((s.store (s.count-1)).obtains i c)
      else some ((s.store (s.count-1)).goto i (.sleeping c))
    | _ => none
  | .pass i =>
    match s.phase i with
    | .sleeping c =>
      if s.kernel > 0 then some ({s with kernel := s.kernel-1}.obtains i c) else none
    | _ => none
  | .timesOut i =>
    match s.phase i with
    | .sleeping c => if 0 ≤ c.timeout then some (s.goto i (.recovering c)) else none
    | _ => none
  | .tryKernel i =>
    match s.phase i with
    | .recovered c old =>
      if 0 ≤ old then
        if s.kernel > 0 then some ({s with kernel := s.kernel-1}.obtains i c)
        else some (s.goto i (.recovering c))
      else none
    | _ => none
  | .signal i n => if s.phase i=.outside ∧ 0 ≤ n then some (s.goto i (.signalling n)) else none
  | .add i =>
    match s.phase i with
    | .signalling n =>
      some {(s.store (s.count+n)).goto i (if toRelease s.count n > 0 then
          .posting (posts (toRelease s.count n)) else .outside) with
        signalled := s.signalled+n}
    | _ => none
  | .post i =>
    match s.phase i with
    | .posting (n+1) => some {s.goto i (.posting n) with kernel := s.kernel+1}
    | .posting 0 => some (s.goto i .outside)
    | _ => none

/-- The values a phase may have. -/
def Phase.Valid : Phase → Prop
  | .outside => True
  | .trying c got limit | .tried c got limit _ =>
    0 ≤ limit ∧ (got=0 ∧ limit=c.limit ∨ got=1 ∧ 1 < c.limit ∧ limit=c.limit-1)
  | .spinning c _ | .spun c _ _ | .sleeping c => c.blocks=true ∧ 0 < c.limit
  | .recovering c | .recovered c _ => c.blocks=true ∧ 0 < c.limit ∧ 0 ≤ c.timeout
  | .signalling n => 0 ≤ n
  | .posting _ => True

/-- A step inside a call after which the thread has, waits for and owes what
it did before. -/
structure Quiet (p q : Phase) : Prop where
  /-- Units. -/
  gained : q.gained=p.gained
  /-- Its place. -/
  asleep : q.asleep=p.asleep
  /-- Posts. -/
  posts : q.posts=p.posts
  /-- The new phase is as good as the old one. -/
  valid : p.Valid → q.Valid

/-- Everything an accepted step can do. -/
inductive Effect (s : State ι) : Act ι → State ι → Prop
  | moves (a : Act ι) (i : ι) (p q : Phase) : s.phase i=p → Quiet p q → Effect s a (s.goto i q)
  | takes (i : ι) (c : Call) (got limit old : ℤ) : s.phase i=.tried c got limit old → 0 < old →
      s.count=old → Effect s (.exchange i)
        ((s.store (c.newCount limit old)).returns i c (got+(old-c.newCount limit old)))
  | spins (i : ι) (c : Call) (spin : ℕ) (old : ℤ) : s.phase i=.spun c spin old → 0 < old →
      s.count=old → Effect s (.exchange i)
        ((s.store (c.newCount c.limit old)).returns i c (old-c.newCount c.limit old))
  | givesBack (i : ι) (c : Call) (old : ℤ) : s.phase i=.recovered c old → old < 0 →
      s.count=old → Effect s (.exchange i) ((s.store (old+1)).returns i c 0)
  | settles (i : ι) (c : Call) (got limit old : ℤ) : s.phase i=.tried c got limit old →
      ¬(got=0 ∧ c.blocks=true ∧ limit > 0) → Effect s (.declines i) (s.returns i c got)
  | subtracts (i : ι) (c : Call) : s.phase i=.spinning c 0 → 0 < s.count →
      Effect s (.subtract i) ((s.store (s.count-1)).obtains i c)
  | sleeps (i : ι) (c : Call) : s.phase i=.spinning c 0 → s.count ≤ 0 →
      Effect s (.subtract i) ((s.store (s.count-1)).goto i (.sleeping c))
  | wakes (a : Act ι) (i : ι) (c : Call) :
      s.phase i=.sleeping c ∨ (∃ old,s.phase i=.recovered c old) → 0 < s.kernel →
      Effect s a ({s with kernel := s.kernel-1}.obtains i c)
  | adds (i : ι) (n : ℤ) : s.phase i=.signalling n →
      Effect s (.add i) {(s.store (s.count+n)).goto i (if toRelease s.count n > 0 then
          .posting (posts (toRelease s.count n)) else .outside) with
        signalled := s.signalled+n}
  | posts (i : ι) (n : ℕ) : s.phase i=.posting (n+1) →
      Effect s (.post i) {s.goto i (.posting n) with kernel := s.kernel+1}

/-- The step function has no other effects. -/
theorem next_effect {spins : ℕ} {s s' : State ι} {a : Act ι} (h : next spins s a=some s') :
    Effect s a s' := by
  cases a with
  | call i c =>
    simp only [next] at h
    split_ifs at h with hp
    cases h
    exact .moves _ i _ _ hp.1 ⟨rfl,rfl,rfl,fun _ => ⟨hp.2,.inl ⟨rfl,rfl⟩⟩⟩
  | load i v =>
    simp only [next] at h
    split_ifs at h
    split at h
    · rename_i hp
      cases h
      exact .moves _ i _ _ hp ⟨rfl,rfl,rfl,fun hv => hv⟩
    · rename_i hp
      cases h
      exact .moves _ i _ _ hp ⟨rfl,rfl,rfl,fun hv => hv⟩
    · rename_i hp
      cases h
      exact .moves _ i _ _ hp ⟨rfl,rfl,rfl,fun hv => hv⟩
    · cases h
  | exchange i =>
    simp only [next] at h
    split at h
    · rename_i c got limit old hp
      split_ifs at h with hold
      cases h
      exact .takes i c got limit old hp hold.1 hold.2
    · rename_i c spin old hp
      split_ifs at h with hold
      cases h
      exact .spins i c spin old hp hold.1 hold.2
    · rename_i c old hp
      split_ifs at h with hold
      cases h
      exact .givesBack i c old hp hold.1 hold.2
    · cases h
  | exchangeFails i v =>
    simp only [next] at h
    split_ifs at h
    split at h
    · rename_i hp
      split_ifs at h
      cases h
      exact .moves _ i _ _ hp ⟨rfl,rfl,rfl,fun hv => hv⟩
    · rename_i hp
      split_ifs at h
      cases h
      exact .moves _ i _ _ hp ⟨rfl,rfl,rfl,fun hv => hv⟩
    · rename_i hp
      split_ifs at h
      cases h
      exact .moves _ i _ _ hp ⟨rfl,rfl,rfl,fun hv => hv⟩
    · cases h
  | declines i =>
    simp only [next] at h
    split at h
    · rename_i c got limit old hp
      split_ifs at h with hold hspin
      · cases h
        refine .moves _ i _ _ hp ⟨hspin.1.symm,rfl,rfl,?_⟩
        rintro ⟨-,⟨-,hlimit⟩|⟨hgot,-⟩⟩
        · exact ⟨hspin.2.1,hlimit ▸ hspin.2.2⟩
        · omega
      · cases h
        exact .settles i c got limit old hp hspin
    · rename_i hp
      split_ifs at h
      cases h
      exact .moves _ i _ _ hp ⟨rfl,rfl,rfl,fun hv => hv⟩
    · cases h
  | subtract i =>
    simp only [next] at h
    split at h
    · rename_i c hp
      split_ifs at h with hcount
      · cases h
        exact .subtracts i c hp hcount
      · cases h
        exact .sleeps i c hp (by omega)
    · cases h
  | pass i =>
    simp only [next] at h
    split at h
    · rename_i c hp
      split_ifs at h with hkernel
      cases h
      exact .wakes _ i c (.inl hp) hkernel
    · cases h
  | timesOut i =>
    simp only [next] at h
    split at h
    · rename_i c hp
      split_ifs at h with htimeout
      cases h
      exact .moves _ i _ _ hp ⟨rfl,rfl,rfl,fun hv => ⟨hv.1,hv.2,htimeout⟩⟩
    · cases h
  | tryKernel i =>
    simp only [next] at h
    split at h
    · rename_i c old hp
      split_ifs at h with hold hkernel
      · cases h
        exact .wakes _ i c (.inr ⟨old,hp⟩) hkernel
      · cases h
        exact .moves _ i _ _ hp ⟨rfl,rfl,rfl,fun hv => hv⟩
    · cases h
  | signal i n =>
    simp only [next] at h
    split_ifs at h with hp
    cases h
    exact .moves _ i _ _ hp.1 ⟨rfl,rfl,rfl,fun _ => hp.2⟩
  | add i =>
    simp only [next] at h
    split at h
    · rename_i n hp
      cases h
      exact .adds i n hp
    · cases h
  | post i =>
    simp only [next] at h
    split at h
    · rename_i n hp
      cases h
      exact .posts i n hp
    · rename_i hp
      cases h
      exact .moves _ i _ _ hp ⟨rfl,rfl,rfl,fun _ => trivial⟩
    · cases h

/-- An exchange which takes units stores no negative count. -/
theorem newCount_nonneg {c : Call} {limit old : ℤ} (hold : 0 < old) : 0 ≤ c.newCount limit old := by
  cases c with
  | tryWait | wait =>
    change 0 ≤ old-1
    omega
  | tryWaitMany | waitMany =>
    change 0 ≤ if old > limit then old-limit else 0
    split <;> omega

/-- Waiting threads nobody has signalled for yet: the count below zero. -/
def shortage (count : ℤ) : ℤ := max (-count) 0

/-- One thread moved, and two accounts stay balanced: units are signalled, in
the count, gained or acquired; whoever waits has a post, an owed post or a
place in the shortage. -/
structure Moved (s s' : State ι) (i : ι) (q : Phase) : Prop where
  /-- Only this thread moved. -/
  phase : s'.phase=Function.update s.phase i q
  /-- The account of units. -/
  units : s'.signalled+(s.phase i).gained+(s.phase i).asleep+s.count+s.acquired=
    s.signalled+q.gained+q.asleep+s'.count+s'.acquired
  /-- The account of waiting threads. -/
  wakes : q.asleep+s.kernel+(s.phase i).posts+shortage s.count=
    (s.phase i).asleep+s'.kernel+q.posts+shortage s'.count

/-- A thread which neither gains, waits nor owes more or less. -/
theorem moved_goto {s : State ι} {i : ι} {q : Phase} (h : Quiet (s.phase i) q) :
    Moved s (s.goto i q) i q := by
  refine ⟨rfl,?_,?_⟩
  · rw [h.gained,h.asleep]
    rfl
  · rw [h.asleep,h.posts]
    rfl

/-- A unit taken the slow way is gained or acquired. -/
theorem obtains_spec (s : State ι) (i : ι) (c : Call) :
    ∃ q,(s.obtains i c).phase=Function.update s.phase i q ∧ q.asleep=0 ∧ q.posts=0 ∧
      q.gained+(s.obtains i c).acquired=s.acquired+1 ∧ (s.obtains i c).count=s.count ∧
      (s.obtains i c).kernel=s.kernel ∧ (s.obtains i c).signalled=s.signalled := by
  unfold State.obtains
  split
  · exact ⟨.trying c 1 (c.limit-1),rfl,rfl,rfl,add_comm 1 _,rfl,rfl,rfl⟩
  · exact ⟨.outside,rfl,rfl,rfl,zero_add _,rfl,rfl,rfl⟩

/-- A thread which gives its place or its share of the count for one unit. -/
theorem moved_obtains {s s₁ : State ι} {i : ι} (c : Call) (hphase : s₁.phase=s.phase)
    (hacquired : s₁.acquired=s.acquired) (hsignalled : s₁.signalled=s.signalled)
    (hgained : (s.phase i).gained=0) (hposts : (s.phase i).posts=0)
    (hunits : s₁.count+1=(s.phase i).asleep+s.count)
    (hwakes : (s.phase i).asleep+s₁.kernel+shortage s₁.count=s.kernel+shortage s.count) :
    ∃ q,Moved s (s₁.obtains i c) i q := by
  obtain ⟨q,hq,hasleep,hposts',hgained',hcount,hkernel,hsig⟩ := obtains_spec s₁ i c
  refine ⟨q,by rw [hq,hphase],?_,?_⟩
  · rw [hsig,hsignalled,hcount]
    omega
  · rw [hkernel,hcount]
    omega

/-- A call which gives up its place, or keeps what it took from the count. -/
theorem moved_returns {s s₁ : State ι} {i : ι} {c : Call} {result : ℤ}
    (hphase : s₁.phase=s.phase) (hacquired : s₁.acquired=s.acquired)
    (hsignalled : s₁.signalled=s.signalled) (hkernel : s₁.kernel=s.kernel)
    (hposts : (s.phase i).posts=0)
    (hunits : (s.phase i).gained+(s.phase i).asleep+s.count=s₁.count+result)
    (hwakes : shortage s.count=(s.phase i).asleep+shortage s₁.count) :
    Moved s (s₁.returns i c result) i .outside := by
  refine ⟨?_,?_,?_⟩
  · change Function.update s₁.phase i .outside=Function.update s.phase i .outside
    rw [hphase]
  · change s₁.signalled+(s.phase i).gained+(s.phase i).asleep+s.count+s.acquired=
      s.signalled+0+0+s₁.count+(s₁.acquired+result)
    omega
  · change 0+s.kernel+(s.phase i).posts+shortage s.count=
      (s.phase i).asleep+s₁.kernel+0+shortage s₁.count
    omega

/-- Below two to the thirty-one the cast to `int` keeps the number of posts. -/
theorem posts_eq {n : ℤ} (hpos : 0 ≤ n) (hlt : n < 2147483648) : (posts n : ℤ)=n := by
  have hbmod : Int.bmod n 4294967296=n := by
    rw [Int.bmod_def]
    split <;> omega
  rw [posts,hbmod]
  exact Int.toNat_of_nonneg hpos

/-- An addition takes exactly `toRelease` threads out of the shortage. -/
theorem shortage_add {count n : ℤ} (hn : 0 ≤ n) :
    shortage count=max (toRelease count n) 0+shortage (count+n) := by
  unfold shortage toRelease
  split <;> omega

/-- The addition of `signal` owes a post to everyone it takes out of the
shortage. -/
theorem moved_add {s : State ι} {i : ι} {n : ℤ} (hp : s.phase i=.signalling n) (hn : 0 ≤ n)
    (hshort : shortage s.count < 2147483648) {q : Phase}
    (hq : q=if toRelease s.count n > 0 then .posting (posts (toRelease s.count n)) else .outside) :
    Moved s {(s.store (s.count+n)).goto i q with signalled := s.signalled+n} i q := by
  have hshortage := @shortage_add s.count n hn
  have hrest : 0 ≤ shortage (s.count+n) := le_max_right _ _
  refine ⟨rfl,?_,?_⟩
  · change s.signalled+n+(s.phase i).gained+(s.phase i).asleep+s.count+s.acquired=
      s.signalled+q.gained+q.asleep+(s.count+n)+s.acquired
    rw [hp,hq]
    split <;> simp only [Phase.gained,Phase.asleep] <;> omega
  · change q.asleep+s.kernel+(s.phase i).posts+shortage s.count=
      (s.phase i).asleep+s.kernel+q.posts+shortage (s.count+n)
    rw [hp,hq]
    split
    · have hposts := posts_eq (n := toRelease s.count n) (by omega) (by omega)
      simp only [Phase.asleep,Phase.posts,hposts]
      omega
    · simp only [Phase.asleep,Phase.posts]
      omega

/-- Every step moves one thread and keeps both accounts. -/
theorem next_moved {spins : ℕ} {s s' : State ι} {a : Act ι} (hvalid : ∀ i,(s.phase i).Valid)
    (hshort : shortage s.count < 2147483648) (hn : next spins s a=some s') :
    ∃ i q,Moved s s' i q := by
  cases next_effect hn with
  | moves a i p q hp hquiet => exact ⟨i,q,moved_goto (hp ▸ hquiet)⟩
  | takes i c got limit old hp hold hcount =>
    have hnew : 0 ≤ c.newCount limit old := newCount_nonneg hold
    refine ⟨i,_,moved_returns rfl rfl rfl rfl ?_ ?_ ?_⟩
    all_goals simp only [hp,Phase.gained,Phase.asleep,Phase.posts,State.store,shortage]
    all_goals omega
  | spins i c spin old hp hold hcount =>
    have hnew : 0 ≤ c.newCount c.limit old := newCount_nonneg hold
    refine ⟨i,_,moved_returns rfl rfl rfl rfl ?_ ?_ ?_⟩
    all_goals simp only [hp,Phase.gained,Phase.asleep,Phase.posts,State.store,shortage]
    all_goals omega
  | givesBack i c old hp hold hcount =>
    refine ⟨i,_,moved_returns rfl rfl rfl rfl ?_ ?_ ?_⟩
    all_goals simp only [hp,Phase.gained,Phase.asleep,Phase.posts,State.store,shortage]
    all_goals omega
  | settles i c got limit old hp hdone =>
    refine ⟨i,_,moved_returns rfl rfl rfl rfl ?_ ?_ ?_⟩
    all_goals simp only [hp,Phase.gained,Phase.asleep,Phase.posts]
    all_goals omega
  | subtracts i c hp hcount =>
    refine ⟨i,moved_obtains c rfl rfl rfl ?_ ?_ ?_ ?_⟩
    all_goals simp only [hp,Phase.gained,Phase.asleep,Phase.posts,State.store,shortage]
    all_goals omega
  | sleeps i c hp hcount =>
    refine ⟨i,.sleeping c,rfl,?_,?_⟩
    all_goals simp only [hp,Phase.gained,Phase.asleep,Phase.posts,State.store,State.goto,shortage]
    all_goals omega
  | wakes a i c hp hkernel =>
    have hasleep : (s.phase i).gained=0 ∧ (s.phase i).posts=0 ∧ (s.phase i).asleep=1 := by
      rcases hp with hp|⟨old,hp⟩ <;> rw [hp] <;> exact ⟨rfl,rfl,rfl⟩
    refine ⟨i,moved_obtains c rfl rfl rfl hasleep.1 hasleep.2.1 ?_ ?_⟩
    · simp only [hasleep.2.2]
      omega
    · simp only [hasleep.2.2]
      omega
  | adds i n hp =>
    have hvalid := hvalid i
    rw [hp] at hvalid
    exact ⟨i,_,moved_add hp hvalid hshort rfl⟩
  | posts i n hp =>
    refine ⟨i,.posting n,rfl,?_,?_⟩
    all_goals simp only [hp,Phase.gained,Phase.asleep,Phase.posts,State.goto]
    all_goals push_cast
    all_goals omega

/-- What a returned call may have taken: at most its limit, and something
unless it does not block, has a timeout or asked for nothing. -/
structure Receipt.Valid (r : Receipt ι) : Prop where
  /-- No call takes a negative number of units. -/
  nonneg : 0 ≤ r.result
  /-- Nor more than it asked for. -/
  bounded : r.result ≤ r.call.limit
  /-- A blocking call without a timeout takes something. -/
  succeeds : r.call.blocks=true → r.call.timeout < 0 → 0 < r.call.limit → 0 < r.result

/-- An exchange takes at most the limit, and something if that is positive. -/
theorem newCount_bounds {c : Call} {limit old : ℤ} (hold : 0 < old) (hlimit : 0 ≤ limit)
    (hsingle : limit=c.limit ∨ 1 < c.limit) :
    0 ≤ old-c.newCount limit old ∧ old-c.newCount limit old ≤ limit ∧
      (0 < limit → 0 < old-c.newCount limit old) := by
  cases c with
  | tryWait | wait =>
    simp only [Call.limit] at hsingle
    simp only [Call.newCount]
    omega
  | tryWaitMany | waitMany =>
    simp only [Call.newCount]
    split <;> omega

omit [DecidableEq ι] in
/-- A returned call joins valid ones. -/
theorem results_cons {returned : List (Receipt ι)} {r : Receipt ι}
    (h : ∀ r∈returned,r.Valid) (hr : r.Valid) : ∀ r'∈r::returned,r'.Valid :=
  List.forall_mem_cons.mpr ⟨hr,h⟩

/-- All phases stay valid when one thread moves to a valid one. -/
theorem valid_update {phase : ι → Phase} (h : ∀ i,(phase i).Valid) {i : ι} {q : Phase}
    (hq : q.Valid) (j : ι) : (Function.update phase i q j).Valid := by
  by_cases hj : j=i
  · subst hj
    rw [Function.update_self]
    exact hq
  · rw [Function.update_of_ne hj]
    exact h j

/-- A unit taken the slow way keeps phases and results valid. -/
theorem valid_obtains {s : State ι} {i : ι} {c : Call} (hphase : ∀ i,(s.phase i).Valid)
    (hresults : ∀ r∈s.returned,r.Valid) (hlimit : 0 < c.limit) :
    (∀ j,((s.obtains i c).phase j).Valid) ∧ ∀ r∈(s.obtains i c).returned,r.Valid := by
  unfold State.obtains
  split
  · rename_i hmany
    refine ⟨valid_update hphase ⟨?_,.inr ⟨rfl,hmany,rfl⟩⟩,hresults⟩
    omega
  · exact ⟨valid_update hphase trivial,
      results_cons hresults ⟨zero_le_one,hlimit,fun _ _ _ => one_pos⟩⟩

/-- Phases and results stay valid. -/
theorem valid_step {spins : ℕ} {s s' : State ι} {a : Act ι} (hphase : ∀ i,(s.phase i).Valid)
    (hresults : ∀ r∈s.returned,r.Valid) (hn : next spins s a=some s') :
    (∀ i,(s'.phase i).Valid) ∧ ∀ r∈s'.returned,r.Valid := by
  cases next_effect hn with
  | moves a i p q hp hquiet =>
    exact ⟨valid_update hphase (hquiet.valid (hp ▸ hphase i)),hresults⟩
  | takes i c got limit old hp hold hcount =>
    have hi := hphase i
    rw [hp] at hi
    obtain ⟨hlimit,hgot⟩ := hi
    obtain ⟨hnonneg,hbounded,hpositive⟩ := newCount_bounds (c := c) hold hlimit (by omega)
    refine ⟨valid_update hphase trivial,
      results_cons hresults ⟨?_,?_,fun _ _ (hpos : 0 < c.limit) => ?_⟩⟩
    all_goals simp only
    all_goals omega
  | spins i c spin old hp hold hcount =>
    have hi := hphase i
    rw [hp] at hi
    obtain ⟨hnonneg,hbounded,hpositive⟩ := newCount_bounds (c := c) hold hi.2.le (.inl rfl)
    exact ⟨valid_update hphase trivial,
      results_cons hresults ⟨hnonneg,hbounded,fun _ _ hpos => hpositive hpos⟩⟩
  | givesBack i c old hp hold hcount =>
    have hi := hphase i
    rw [hp] at hi
    obtain ⟨-,hlimit,htimeout⟩ := hi
    refine ⟨valid_update hphase trivial,
      results_cons hresults ⟨le_rfl,hlimit.le,fun _ huntimed _ => ?_⟩⟩
    simp only at huntimed
    omega
  | settles i c got limit old hp hdone =>
    have hi := hphase i
    rw [hp] at hi
    obtain ⟨hlimit,hgot⟩ := hi
    refine ⟨valid_update hphase trivial,results_cons hresults ⟨?_,?_,fun hblocks _ hpos => ?_⟩⟩
    · simp only
      omega
    · simp only
      omega
    · simp only at hblocks hpos ⊢
      rcases hgot with ⟨hzero,hsame⟩|⟨hone,-⟩
      · exact False.elim (hdone ⟨hzero,hblocks,by omega⟩)
      · omega
  | subtracts i c hp hcount =>
    have hi := hphase i
    rw [hp] at hi
    exact valid_obtains (s := s.store (s.count-1)) hphase hresults hi.2
  | sleeps i c hp hcount =>
    have hi := hphase i
    rw [hp] at hi
    exact ⟨valid_update hphase hi,hresults⟩
  | wakes a i c hp hkernel =>
    have hi := hphase i
    have hlimit : 0 < c.limit := by
      rcases hp with hp|⟨old,hp⟩ <;> rw [hp] at hi
      · exact hi.2
      · exact hi.2.1
    exact valid_obtains (s := {s with kernel := s.kernel-1}) hphase hresults hlimit
  | adds i n hp =>
    refine ⟨valid_update hphase ?_,hresults⟩
    split <;> trivial
  | posts i n hp => exact ⟨valid_update hphase trivial,hresults⟩

/-- The thread which takes a step. -/
def Act.thread : Act ι → ι
  | .call i _ | .load i _ | .exchange i | .exchangeFails i _ | .declines i | .subtract i | .pass i
  | .timesOut i | .tryKernel i | .signal i _ | .add i | .post i => i

/-- The step begins a call. -/
def Act.begins : Act ι → Bool
  | .call _ _ | .signal _ _ => true
  | _ => false

/-- The thread is inside a call which takes units. -/
def Phase.takes : Phase → Bool
  | .trying _ _ _ | .tried _ _ _ _ | .spinning _ _ | .spun _ _ _ | .sleeping _ | .recovering _
  | .recovered _ _ => true
  | _ => false

/-- The call which takes units. -/
def Phase.call : Phase → Option Call
  | .trying c _ _ | .tried c _ _ _ | .spinning c _ | .spun c _ _ | .sleeping c | .recovering c
  | .recovered c _ => some c
  | _ => none

/-- The thread is inside `signal`. -/
def Phase.gives : Phase → Bool
  | .signalling _ | .posting _ => true
  | _ => false

/-- Units of a `signal` which has not added them yet. -/
def Phase.unsaid : Phase → ℤ
  | .signalling n => n
  | _ => 0

/-- What a step inside a call means to the caller. -/
inductive Progress (s s' : State ι) (i : ι) : Prop
  | takes (q : Phase) : (s.phase i).takes=true → q.takes=true → q.call=(s.phase i).call →
      s'.phase=Function.update s.phase i q → s'.signalled=s.signalled →
      s'.acquired=s.acquired → s'.returned=s.returned → Progress s s' i
  | returns (c : Call) (result : ℤ) : (s.phase i).takes=true → (s.phase i).call=some c →
      s'.phase=Function.update s.phase i .outside → s'.signalled=s.signalled →
      s'.acquired=s.acquired+result → s'.returned=⟨i,c,result⟩::s.returned → Progress s s' i
  | gives (q : Phase) : (s.phase i).gives=true → q.gives=true ∨ q=.outside → q.unsaid=0 →
      s'.phase=Function.update s.phase i q → s'.signalled=s.signalled+(s.phase i).unsaid →
      s'.acquired=s.acquired → s'.returned=s.returned → Progress s s' i

/-- A step from one phase of a taking call to another. -/
theorem progress_goto {s : State ι} {i : ι} {p q : Phase} (hp : s.phase i=p) (htakes : p.takes=true)
    (hq : q.takes=true) (hcall : q.call=p.call) : Progress s (s.goto i q) i :=
  .takes q (hp ▸ htakes) hq (hp ▸ hcall) rfl rfl rfl rfl

/-- A taking call returns. -/
theorem progress_returns {s s₁ : State ι} {i : ι} {p : Phase} (c : Call) (result : ℤ)
    (hp : s.phase i=p) (htakes : p.takes=true) (hcall : p.call=some c)
    (hphase : s₁.phase=s.phase) (hsignalled : s₁.signalled=s.signalled)
    (hacquired : s₁.acquired=s.acquired) (hreturned : s₁.returned=s.returned) :
    Progress s (s₁.returns i c result) i := by
  refine .returns c result (hp ▸ htakes) (hp ▸ hcall) ?_ hsignalled ?_ ?_
  · change Function.update s₁.phase i .outside=_
    rw [hphase]
  · change s₁.acquired+result=_
    rw [hacquired]
  · change _::s₁.returned=_
    rw [hreturned]

/-- A taking call has a unit. -/
theorem progress_obtains {s s₁ : State ι} {i : ι} {p : Phase} (c : Call) (hp : s.phase i=p)
    (htakes : p.takes=true) (hcall : p.call=some c) (hphase : s₁.phase=s.phase)
    (hsignalled : s₁.signalled=s.signalled) (hacquired : s₁.acquired=s.acquired)
    (hreturned : s₁.returned=s.returned) : Progress s (s₁.obtains i c) i := by
  unfold State.obtains
  split
  · refine .takes (.trying c 1 (c.limit-1)) (hp ▸ htakes) rfl (hp ▸ hcall.symm) ?_ hsignalled
      hacquired hreturned
    change Function.update s₁.phase i _=_
    rw [hphase]
  · exact progress_returns c 1 hp htakes hcall hphase hsignalled hacquired hreturned

/-- Every step inside a call is one of these. -/
theorem next_progress {spins : ℕ} {s s' : State ι} {a : Act ι} (hinside : a.begins=false)
    (h : next spins s a=some s') : Progress s s' a.thread := by
  cases a with
  | call i c => cases hinside
  | signal i n => cases hinside
  | load i v =>
    simp only [next] at h
    split_ifs at h
    split at h <;> cases h <;> rename_i hp <;> exact progress_goto hp rfl rfl rfl
  | exchange i =>
    simp only [next] at h
    split at h <;> try cases h
    all_goals rename_i hp
    all_goals split_ifs at h
    all_goals cases h
    all_goals exact progress_returns _ _ hp rfl rfl rfl rfl rfl rfl
  | exchangeFails i v =>
    simp only [next] at h
    split_ifs at h
    split at h <;> try cases h
    all_goals rename_i hp
    all_goals split_ifs at h
    all_goals cases h
    all_goals exact progress_goto hp rfl rfl rfl
  | declines i =>
    simp only [next] at h
    split at h <;> try cases h
    all_goals rename_i hp
    all_goals split_ifs at h
    all_goals cases h
    · exact progress_goto hp rfl rfl rfl
    · exact progress_returns _ _ hp rfl rfl rfl rfl rfl rfl
    · exact progress_goto hp rfl rfl rfl
  | subtract i =>
    simp only [next] at h
    split at h <;> try cases h
    rename_i hp
    split_ifs at h
    · cases h
      exact progress_obtains _ hp rfl rfl rfl rfl rfl rfl
    · cases h
      exact .takes _ (hp ▸ rfl) rfl (hp ▸ rfl) rfl rfl rfl rfl
  | pass i =>
    simp only [next] at h
    split at h <;> try cases h
    rename_i hp
    split_ifs at h
    cases h
    exact progress_obtains _ hp rfl rfl rfl rfl rfl rfl
  | timesOut i =>
    simp only [next] at h
    split at h <;> try cases h
    rename_i hp
    split_ifs at h
    cases h
    exact progress_goto hp rfl rfl rfl
  | tryKernel i =>
    simp only [next] at h
    split at h <;> try cases h
    rename_i hp
    split_ifs at h
    · cases h
      exact progress_obtains _ hp rfl rfl rfl rfl rfl rfl
    · cases h
      exact progress_goto hp rfl rfl rfl
  | add i =>
    simp only [next] at h
    split at h <;> try cases h
    rename_i n hp
    refine .gives _ (hp ▸ rfl) ?_ ?_ rfl ?_ rfl rfl
    · split
      · exact .inl rfl
      · exact .inr rfl
    · split <;> rfl
    · change s.signalled+n=s.signalled+(s.phase i).unsaid
      rw [hp]
      rfl
  | post i =>
    simp only [next] at h
    split at h <;> try cases h
    · rename_i hp
      exact .gives _ (hp ▸ rfl) (.inl rfl) rfl rfl (hp ▸ (add_zero _).symm) rfl rfl
    · rename_i hp
      exact .gives _ (hp ▸ rfl) (.inr rfl) rfl rfl (hp ▸ (add_zero _).symm) rfl rfl

/-- The other threads stay where they are. -/
theorem next_others {spins : ℕ} {s s' : State ι} {a : Act ι} (hinside : a.begins=false)
    (h : next spins s a=some s') {j : ι} (hj : j≠a.thread) : s'.phase j=s.phase j := by
  cases next_progress hinside h with
  | takes q _ _ _ hphase => rw [hphase,Function.update_of_ne hj]
  | returns c result _ _ hphase => rw [hphase,Function.update_of_ne hj]
  | gives q _ _ _ hphase => rw [hphase,Function.update_of_ne hj]

section Totals

variable [Fintype ι]

/-- Threads which wait. -/
def asleep (s : State ι) : ℤ := total (fun _ p => Phase.asleep p) s.phase

/-- Units in calls which have not returned yet. -/
def gained (s : State ι) : ℤ := total (fun _ p => Phase.gained p) s.phase

/-- Posts which threads inside `signal` still owe. -/
def owed (s : State ι) : ℤ := total (fun _ p => Phase.posts p) s.phase

/-- The invariant of the semaphore. -/
structure Sound (initial : ℤ) (s : State ι) : Prop where
  /-- The account of units. -/
  units : initial+s.signalled=s.acquired+gained s+s.count+asleep s
  /-- The account of waiting threads. -/
  wakes : asleep s=s.kernel+owed s+shortage s.count
  /-- All phases. -/
  phases : ∀ i,(s.phase i).Valid
  /-- All results. -/
  results : ∀ r∈s.returned,r.Valid

omit [DecidableEq ι] in
/-- Nobody is inside yet. -/
theorem sound_start {initial : ℤ} (h : 0 ≤ initial) :
    Sound initial (.start initial : State ι) := by
  have hzero : asleep (.start initial : State ι)=0 ∧ gained (.start initial : State ι)=0 ∧
      owed (.start initial : State ι)=0 :=
    ⟨total_eq_zero _ _ fun _ => rfl,total_eq_zero _ _ fun _ => rfl,total_eq_zero _ _ fun _ => rfl⟩
  refine ⟨?_,?_,fun _ => trivial,nofun⟩
  · rw [hzero.1,hzero.2.1]
    simp only [State.start]
    omega
  · rw [hzero.1,hzero.2.2]
    simp only [State.start,shortage]
    omega

omit [DecidableEq ι] in
/-- No more threads wait than there are. -/
theorem asleep_le_card (s : State ι) : asleep s ≤ Fintype.card ι := by
  have hone : ∀ i∈Finset.univ,Phase.asleep (s.phase i) ≤ 1 := by
    intro i _
    cases s.phase i <;> simp only [Phase.asleep] <;> omega
  have hsum := Finset.sum_le_card_nsmul Finset.univ _ 1 hone
  rw [nsmul_eq_mul,mul_one,Finset.card_univ] at hsum
  exact hsum

omit [DecidableEq ι] in
/-- Posts owed are no fewer than none. -/
theorem owed_nonneg (s : State ι) : 0 ≤ owed s := by
  refine Finset.sum_nonneg fun i _ => ?_
  cases s.phase i <;> simp only [Phase.posts] <;> omega

omit [DecidableEq ι] in
/-- Nor are waiting threads. -/
theorem asleep_nonneg (s : State ι) : 0 ≤ asleep s := by
  refine Finset.sum_nonneg fun i _ => ?_
  cases s.phase i <;> simp only [Phase.asleep] <;> omega

omit [DecidableEq ι] in
/-- A sleeping thread is one which waits. -/
theorem one_le_asleep {s : State ι} {i : ι} {c : Call} (hi : s.phase i=.sleeping c) :
    1 ≤ asleep s := by
  have hle := Finset.single_le_sum (f := fun j => Phase.asleep (s.phase j))
    (fun j _ => by cases s.phase j <;> simp only [Phase.asleep] <;> omega) (Finset.mem_univ i)
  simp only [hi,Phase.asleep] at hle
  exact hle

/-- A thread which moves to where nobody waits. -/
theorem asleep_update_le {s s' : State ι} {i : ι} {q : Phase}
    (hphase : s'.phase=Function.update s.phase i q) (hq : q.asleep=0) : asleep s' ≤ asleep s := by
  have hupdate := total_update (fun _ p => Phase.asleep p) s.phase i q
  rw [←hphase] at hupdate
  change asleep s'+(s.phase i).asleep=asleep s+q.asleep at hupdate
  have hnonneg : 0 ≤ (s.phase i).asleep := by
    cases s.phase i <;> simp only [Phase.asleep] <;> omega
  omega

/-- Only who finds no unit begins to wait. -/
theorem asleep_step_le {spins : ℕ} {s s' : State ι} {a : Act ι}
    (hcount : (s.phase a.thread).takes=true → 0 < s.count) (hn : next spins s a=some s') :
    asleep s' ≤ asleep s := by
  have hobtains : ∀ {s₁ : State ι} {i : ι} {c : Call},s₁.phase=s.phase →
      asleep (s₁.obtains i c) ≤ asleep s := by
    intro s₁ i c hphase
    unfold State.obtains
    split
    · exact asleep_update_le (q := .trying c 1 (c.limit-1)) (by rw [←hphase]; rfl) rfl
    · exact asleep_update_le (q := .outside) (by rw [←hphase]; rfl) rfl
  cases next_effect hn with
  | moves a i p q hp hquiet =>
    have hupdate := total_update (fun _ p => Phase.asleep p) s.phase i q
    rw [hp] at hupdate
    change asleep (s.goto i q)+p.asleep=asleep s+q.asleep at hupdate
    have hsame := hquiet.asleep
    omega
  | takes | spins | givesBack | settles => exact asleep_update_le (q := .outside) rfl rfl
  | subtracts => exact hobtains rfl
  | wakes => exact hobtains rfl
  | sleeps i c hp hempty =>
    have hpositive := hcount (by simp only [Act.thread,hp,Phase.takes])
    omega
  | adds i n hp =>
    refine asleep_update_le rfl ?_
    split <;> rfl
  | posts i n hp => exact asleep_update_le rfl rfl

/-- Every step keeps the invariant. -/
theorem sound_step {spins : ℕ} {initial : ℤ} {s s' : State ι} {a : Act ι}
    (hcard : Fintype.card ι < 2147483648) (h : Sound initial s) (hn : next spins s a=some s') :
    Sound initial s' := by
  have hle := asleep_le_card s
  have howed := owed_nonneg s
  have hwakes := h.wakes
  obtain ⟨i,q,hmoved⟩ := next_moved h.phases (by omega) hn
  obtain ⟨hphases,hresults⟩ := valid_step h.phases h.results hn
  have hasleep := total_update (fun _ p => Phase.asleep p) s.phase i q
  have hgained := total_update (fun _ p => Phase.gained p) s.phase i q
  have howed' := total_update (fun _ p => Phase.posts p) s.phase i q
  rw [←hmoved.phase] at hasleep hgained howed'
  change asleep s'+(s.phase i).asleep=asleep s+q.asleep at hasleep
  change gained s'+(s.phase i).gained=gained s+q.gained at hgained
  change owed s'+(s.phase i).posts=owed s+q.posts at howed'
  have hunits := hmoved.units
  have hmwakes := hmoved.wakes
  have hsum := h.units
  refine ⟨?_,?_,hphases,hresults⟩
  · omega
  · omega

/-- The invariant holds in every state of every interleaving. -/
theorem sound_of_reaches {spins : ℕ} {initial : ℤ} {acts : List (Act ι)} {s : State ι}
    (hcard : Fintype.card ι < 2147483648) (hinitial : 0 ≤ initial)
    (h : Reaches (next spins) Unrestricted (.start initial) acts s) : Sound initial s :=
  h.invariant (sound_start hinitial) fun hi _ hn => sound_step hcard hi hn

omit [DecidableEq ι] in
/-- Units in calls are no fewer than none. -/
theorem gained_nonneg {s : State ι} (h : ∀ i,(s.phase i).Valid) : 0 ≤ gained s := by
  refine Finset.sum_nonneg fun i _ => ?_
  have hi := h i
  cases hp : s.phase i with
  | trying c got limit | tried c got limit =>
    rw [hp] at hi
    rcases hi.2 with hgot|hgot <;> simp only [Phase.gained,hgot.1,le_refl,zero_le_one]
  | _ => exact le_rfl

/-- A step only adds to the histories, and leaves at most the count behind. -/
theorem histories_step {spins : ℕ} {initial : ℤ} {s s' : State ι} {a : Act ι}
    (h : Sound initial s) (hn : next spins s a=some s') :
    s.acquired ≤ s'.acquired ∧ s.signalled ≤ s'.signalled ∧ ∀ v∈s'.past,s.Seen v := by
  have hkept : ∀ v∈s.past,s.Seen v := fun v hv => .inr hv
  have hleft : ∀ v∈s.count::s.past,s.Seen v := List.forall_mem_cons.mpr ⟨.inl rfl,hkept⟩
  have hresults := (valid_step h.phases h.results hn).2
  have hobtains : ∀ (s₁ : State ι) (i : ι) (c : Call),s₁.acquired ≤ (s₁.obtains i c).acquired ∧
      (s₁.obtains i c).signalled=s₁.signalled ∧ (s₁.obtains i c).past=s₁.past := by
    intro s₁ i c
    unfold State.obtains
    split
    · exact ⟨le_rfl,rfl,rfl⟩
    · exact ⟨le_add_of_nonneg_right zero_le_one,rfl,rfl⟩
  cases next_effect hn with
  | moves => exact ⟨le_rfl,le_rfl,hkept⟩
  | takes | spins | givesBack =>
    exact ⟨le_add_of_nonneg_right (hresults _ List.mem_cons_self).nonneg,le_rfl,hleft⟩
  | settles =>
    exact ⟨le_add_of_nonneg_right (hresults _ List.mem_cons_self).nonneg,le_rfl,hkept⟩
  | subtracts i c =>
    obtain ⟨hacquired,hsignalled,hpast⟩ := hobtains (s.store (s.count-1)) i c
    exact ⟨hacquired,hsignalled.ge,hpast ▸ hleft⟩
  | sleeps => exact ⟨le_rfl,le_rfl,hleft⟩
  | wakes a i c =>
    obtain ⟨hacquired,hsignalled,hpast⟩ := hobtains {s with kernel := s.kernel-1} i c
    refine ⟨hacquired,hsignalled.ge,?_⟩
    rw [hpast]
    exact hkept
  | adds i n hp =>
    have hi := h.phases i
    rw [hp] at hi
    exact ⟨le_rfl,le_add_of_nonneg_right hi,hleft⟩
  | posts => exact ⟨le_rfl,le_rfl,hkept⟩

/-- The values `m_count` had so far. -/
structure Ranged (initial : ℤ) (s : State ι) : Prop where
  /-- Nobody returned more than was taken. -/
  acquired : 0 ≤ s.acquired
  /-- Every value is at most all units and at least the threads below zero. -/
  seen : ∀ v,s.Seen v → -Fintype.card ι ≤ v ∧ v ≤ initial+s.signalled

omit [DecidableEq ι] in
/-- The present value is in the range. -/
theorem count_ranged {initial : ℤ} {s : State ι} (h : Sound initial s) (hnonneg : 0 ≤ s.acquired) :
    -Fintype.card ι ≤ s.count ∧ s.count ≤ initial+s.signalled := by
  have hgained := gained_nonneg h.phases
  have hasleep := asleep_nonneg s
  have hcard := asleep_le_card s
  have howed := owed_nonneg s
  have hunits := h.units
  have hwakes := h.wakes
  unfold shortage at hwakes
  omega

/-- No step leaves the range. -/
theorem ranged_step {spins : ℕ} {initial : ℤ} {s s' : State ι} {a : Act ι}
    (hcard : Fintype.card ι < 2147483648) (h : Sound initial s) (hr : Ranged initial s)
    (hn : next spins s a=some s') : Ranged initial s' := by
  obtain ⟨hacquired,hsignalled,hpast⟩ := histories_step h hn
  have hnonneg : 0 ≤ s'.acquired := hr.acquired.trans hacquired
  refine ⟨hnonneg,?_⟩
  rintro v (rfl|hv)
  · exact count_ranged (sound_step hcard h hn) hnonneg
  · obtain ⟨hlow,hhigh⟩ := hr.seen v (hpast v hv)
    exact ⟨hlow,hhigh.trans (by omega)⟩

/-- The range holds in every state of every interleaving. -/
theorem ranged_of_reaches {spins : ℕ} {initial : ℤ} {acts : List (Act ι)} {s : State ι}
    (hcard : Fintype.card ι < 2147483648) (hinitial : 0 ≤ initial)
    (h : Reaches (next spins) Unrestricted (.start initial) acts s) : Ranged initial s := by
  have hstart : Ranged initial (.start initial : State ι) := by
    refine ⟨le_rfl,?_⟩
    rintro v (rfl|hv)
    · exact count_ranged (sound_start hinitial) le_rfl
    · cases hv
  exact (h.invariant (I := fun s => Sound initial s ∧ Ranged initial s)
    ⟨sound_start hinitial,hstart⟩ fun hi _ hn =>
      ⟨sound_step hcard hi.1 hn,ranged_step hcard hi.1 hi.2 hn⟩).2

/-- Units are conserved and no wake-up is lost, in every state of every
interleaving of any threads inside the semaphore, with timeouts, outdated
loads and failing exchanges, as long as fewer than `2^63` units were given.
Then no value of the count ever left the range of its type. What was given is
in the hands of callers, in the count, or on its way to a waiting thread; so no
unit is taken twice. While the count is negative exactly that many threads wait
unanswered, and once it is not, every waiting thread has a post, made or owed.
A call takes at most what it asked for, and a blocking one without a timeout
takes something. -/
theorem units_conserved_no_lost_wakeup {spins : ℕ} {initial : ℤ} {acts : List (Act ι)}
    {s : State ι} (hcard : Fintype.card ι < 2147483648) (hinitial : 0 ≤ initial)
    (h : Reaches (next spins) Unrestricted (.start initial) acts s)
    (hgiven : initial+s.signalled < 9223372036854775808) :
    (∀ v,s.Seen v → -9223372036854775808 ≤ v ∧ v < 9223372036854775808) ∧
      initial+s.signalled=s.acquired+gained s+max s.count 0+s.kernel+owed s ∧
      asleep s=s.kernel+owed s+max (-s.count) 0 ∧
      (∀ i c,s.phase i=.sleeping c → 0 ≤ s.count → owed s=0 →
        (next spins s (.pass i)).isSome=true) ∧
      ∀ r∈s.returned,r.Valid := by
  have hsound := sound_of_reaches hcard hinitial h
  have hranged := ranged_of_reaches hcard hinitial h
  have hunits := hsound.units
  have hwakes := hsound.wakes
  unfold shortage at hwakes
  refine ⟨fun v hv => ?_,by omega,hwakes,fun i c hi hcount howed => ?_,hsound.results⟩
  · obtain ⟨hlow,hhigh⟩ := hranged.seen v hv
    omega
  have hone := one_le_asleep hi
  have hkernel : s.kernel > 0 := by omega
  simp only [next,hi,if_pos hkernel,Option.isSome_some]

end Totals

/-- Two threads wait, one of them with a timeout. It times out and reads an
outdated count while a third thread signals three units; so it finds that it
was signalled for, and takes its post after all. The other one takes its own
post and then the last unit. -/
def crossedRun : List (Act (Fin 3)) :=
  [.call 0 (.wait 5),.load 0 0,.declines 0,.load 0 0,.declines 0,.subtract 0,
    .call 1 (.waitMany 3 (-1)),.load 1 0,.declines 1,.load 1 (-1),.declines 1,.subtract 1,
    .timesOut 0,.load 0 (-1),.exchangeFails 0 (-2),.signal 2 3,.add 2,.load 0 1,.tryKernel 0,
    .post 2,.load 0 1,.tryKernel 0,.post 2,.post 2,.pass 1,.load 1 1,.exchange 1]

/-- All three units were taken, one by the first thread and two by the second. -/
theorem units_conserved_no_lost_wakeup_crossed :
    ∃ s : State (Fin 3),Reaches (next 1) Unrestricted (.start 0) crossedRun s ∧
      s.returned=[⟨1,.waitMany 3 (-1),2⟩,⟨0,.wait 5,1⟩] ∧ s.count=0 ∧ s.acquired=3 ∧
      0+s.signalled=s.acquired+gained s+max s.count 0+s.kernel+owed s := by
  obtain ⟨s,hs,hseen⟩ := reaches_of_replay (next 1) Unrestricted (.start 0) crossedRun
    (fun s => (s.returned,s.count,s.acquired,s.signalled))
    ([⟨1,.waitMany 3 (-1),2⟩,⟨0,.wait 5,1⟩],0,3,3) (by decide +kernel)
  simp only [Prod.mk.injEq] at hseen
  obtain ⟨hreturned,hcount,hacquired,hsignalled⟩ := hseen
  have hgiven : 0+s.signalled < 9223372036854775808 := by
    rw [hsignalled]
    decide
  exact ⟨s,hs,hreturned,hcount,hacquired,
    (units_conserved_no_lost_wakeup (by simp) le_rfl hs hgiven).2.1⟩

end FastEventSystem.LightweightSemaphore
