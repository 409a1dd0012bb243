import FastEventSystem.GuardedRuns
import FastEventSystem.PartyTotals

/-!
# The counting semaphore and the threads inside it

Each channel owns one `fes::semaphore`. The callers of the channel only rely on
its count: `notify` adds one, `wait` takes one and cannot pass while there is
none, and `size` reads the count. There the count is below the number of entries
in memory, so it is a natural number.

Inside are a mutex, a condition variable and the count, with any number of
threads in `notify` and `wait`. A thread which holds the mutex runs its critical
section as one step: `notify` adds one and calls `notify_one`, and a test of the
predicate which finds a positive count takes one. Everything else interleaves:
acquiring the mutex, testing in vain and falling asleep, being woken by
`notify_one` or spuriously, and acquiring the mutex again. The count wraps at two
to the sixty-four, as an `unsigned long` does where it has 64 bits. Numbers of
completed calls are histories.
-/

namespace FastEventSystem.CountingSemaphore

/-- The count of a `fes::semaphore`. -/
structure Semaphore where
  /-- The field `_len`. -/
  len : ℕ
  deriving DecidableEq,Repr

/-- Add one and wake a waiter. -/
def Semaphore.notify (sem : Semaphore) : Semaphore := ⟨sem.len+1⟩

/-- Take one; refused while the predicate of the wait is false. -/
def Semaphore.wait (sem : Semaphore) : Option Semaphore :=
  if sem.len > 0 then some ⟨sem.len-1⟩ else none

/-- Read the count. -/
def Semaphore.size (sem : Semaphore) : ℕ := sem.len

/-- A wait passes exactly by lowering a positive count. -/
theorem Semaphore.wait_eq_some {sem sem' : Semaphore} :
    sem.wait=some sem' ↔ sem.len=sem'.len+1 := by
  cases sem with
  | mk len =>
    cases sem' with
    | mk len' =>
      simp only [Semaphore.wait]
      split_ifs with h
      · simp only [Option.some.injEq,mk.injEq]
        omega
      · simp only [false_iff]
        omega

end FastEventSystem.CountingSemaphore

namespace FastEventSystem.SemaphoreThreads

open CountingSemaphore GuardedRuns PartyTotals

/-- Where a thread stands. -/
inductive Phase where
  /-- In neither call. -/
  | outside
  /-- In `notify`, before it has the mutex. -/
  | notifying
  /-- In `notify`, with the mutex. -/
  | adding
  /-- In `wait`, before it has the mutex for the first time. -/
  | arriving
  /-- In `wait`, with the mutex, before its first test. -/
  | testing
  /-- The predicate was false; the mutex is still held. -/
  | parking
  /-- Asleep on the condition variable. -/
  | asleep
  /-- Woken, before it has the mutex again. -/
  | woken
  /-- Woken and with the mutex, before it tests again. -/
  | retesting
  deriving DecidableEq

/-- The thread holds the mutex. -/
def Phase.holds : Phase → Bool
  | .adding | .testing | .parking | .retesting => true
  | _ => false

/-- The thread was woken and is still to test the predicate again. -/
def Phase.awake : Phase → ℕ
  | .woken | .retesting => 1
  | _ => 0

/-- Two to the sixty-four, one past the largest value of `unsigned long`. -/
@[irreducible] def modulus : ℕ := 18446744073709551616

/-- `++` of an `unsigned long`. -/
@[irreducible] def increment (n : ℕ) : ℕ := (n+1)%modulus

/-- `--` of an `unsigned long`. -/
@[irreducible] def decrement (n : ℕ) : ℕ := if n=0 then modulus-1 else n-1

/-- The modulus is not zero. -/
theorem modulus_pos : 0 < modulus := by
  unfold modulus
  omega

/-- Below the largest value `++` adds one. -/
theorem increment_eq {n : ℕ} (h : n+1 < modulus) : increment n=n+1 := by
  unfold increment
  exact Nat.mod_eq_of_lt h

/-- Above zero `--` takes one. -/
theorem decrement_eq {n : ℕ} (hpos : 0 < n) : decrement n=n-1 := by
  unfold decrement
  exact if_neg (by omega)

/-- `++` stays within `unsigned long`. -/
theorem increment_lt (n : ℕ) : increment n < modulus := by
  unfold increment
  exact Nat.mod_lt _ modulus_pos

/-- The semaphore and all threads. -/
structure State (ι : Type*) where
  /-- The field `_len`. -/
  len : ℕ
  /-- The thread which has `_mutex`. -/
  owner : Option ι
  /-- Every thread's position. -/
  phase : ι → Phase
  /-- The count given to the constructor. -/
  initial : ℕ
  /-- Completed calls of `notify`. -/
  notifies : ℕ
  /-- Completed calls of `wait`. -/
  waits : ℕ

variable {ι : Type*}

/-- A new semaphore and nobody inside. -/
def State.start (initial : ℕ) : State ι := ⟨initial,none,fun _ => .outside,initial,0,0⟩

/-- One step of a thread. -/
inductive Act (ι : Type*) where
  /-- Call `notify`. -/
  | notify (i : ι)
  /-- Call `wait`. -/
  | wait (i : ι)
  /-- Acquire the mutex, for the first time or after a wake-up. -/
  | lock (i : ι)
  /-- Add one, wake a sleeper if there is one, release the mutex, return. -/
  | add (i : ι) (sleeper : Option ι)
  /-- Test the predicate; if it holds take one, release the mutex, return. -/
  | test (i : ι)
  /-- Release the mutex and fall asleep. -/
  | sleep (i : ι)
  /-- Wake up for no reason. -/
  | spurious (i : ι)

variable [DecidableEq ι]

/-- Move one thread. -/
def State.goto (s : State ι) (i : ι) (p : Phase) : State ι :=
  {s with phase := Function.update s.phase i p}

/-- `notify_one`: somebody asleep is woken, if anybody is. -/
def State.notifyOne [Fintype ι] (s : State ι) : Option ι → Option (State ι)
  | some j => if s.phase j=.asleep then some (s.goto j .woken) else none
  | none => if ∀ j,s.phase j≠.asleep then some s else none

/-- Perform one step. -/
def next [Fintype ι] (s : State ι) : Act ι → Option (State ι)
  | .notify i => if s.phase i=.outside then some (s.goto i .notifying) else none
  | .wait i => if s.phase i=.outside then some (s.goto i .arriving) else none
  | .lock i =>
    if s.owner=none then
      match s.phase i with
      | .notifying => some {s.goto i .adding with owner := some i}
      | .arriving => some {s.goto i .testing with owner := some i}
      | .woken => some {s.goto i .retesting with owner := some i}
      | _ => none
    else none
  | .add i sleeper =>
    if s.phase i=.adding then
      State.notifyOne {s.goto i .outside with
        len := increment s.len
        owner := none
        notifies := s.notifies+1} sleeper
    else none
  | .test i =>
    if s.phase i=.testing ∨ s.phase i=.retesting then
      if s.len > 0 then some {s.goto i .outside with
        len := decrement s.len
        owner := none
        waits := s.waits+1}
      else some (s.goto i .parking)
    else none
  | .sleep i =>
    if s.phase i=.parking then some {s.goto i .asleep with owner := none} else none
  | .spurious i => if s.phase i=.asleep then some (s.goto i .woken) else none

/-- Everything an accepted step can do. -/
inductive Effect [Fintype ι] (s : State ι) : Act ι → State ι → Prop
  | enters (a : Act ι) (i : ι) (p : Phase) : s.phase i=.outside →
      p=.notifying ∨ p=.arriving → Effect s a (s.goto i p)
  | locks (i : ι) (p q : Phase) : s.owner=none → s.phase i=p →
      (p=.notifying ∧ q=.adding ∨ p=.arriving ∧ q=.testing ∨ p=.woken ∧ q=.retesting) →
      Effect s (.lock i) {s.goto i q with owner := some i}
  | adds (i j : ι) : s.phase i=.adding → j≠i → s.phase j=.asleep →
      Effect s (.add i (some j)) (State.goto {s.goto i .outside with
        len := increment s.len
        owner := none
        notifies := s.notifies+1} j .woken)
  | addsUnheard (i : ι) : s.phase i=.adding → (∀ j,s.phase j≠.asleep) →
      Effect s (.add i none) {s.goto i .outside with
        len := increment s.len
        owner := none
        notifies := s.notifies+1}
  | takes (i : ι) : s.phase i=.testing ∨ s.phase i=.retesting → 0 < s.len →
      Effect s (.test i) {s.goto i .outside with
        len := decrement s.len
        owner := none
        waits := s.waits+1}
  | parks (i : ι) : s.phase i=.testing ∨ s.phase i=.retesting → s.len=0 →
      Effect s (.test i) (s.goto i .parking)
  | sleeps (i : ι) : s.phase i=.parking →
      Effect s (.sleep i) {s.goto i .asleep with owner := none}
  | wakes (i : ι) : s.phase i=.asleep → Effect s (.spurious i) (s.goto i .woken)

/-- The step function has no other effects. -/
theorem next_effect [Fintype ι] {s s' : State ι} {a : Act ι} (h : next s a=some s') :
    Effect s a s' := by
  cases a with
  | notify i =>
    simp only [next] at h
    split_ifs at h with hp
    cases h
    exact .enters _ i _ hp (.inl rfl)
  | wait i =>
    simp only [next] at h
    split_ifs at h with hp
    cases h
    exact .enters _ i _ hp (.inr rfl)
  | lock i =>
    simp only [next] at h
    split_ifs at h with ho
    split at h
    · rename_i hp
      cases h
      exact .locks i _ _ ho hp (.inl ⟨rfl,rfl⟩)
    · rename_i hp
      cases h
      exact .locks i _ _ ho hp (.inr (.inl ⟨rfl,rfl⟩))
    · rename_i hp
      cases h
      exact .locks i _ _ ho hp (.inr (.inr ⟨rfl,rfl⟩))
    · cases h
  | add i sleeper =>
    simp only [next] at h
    split_ifs at h with hp
    cases sleeper with
    | none =>
      simp only [State.notifyOne] at h
      split_ifs at h with hnone
      cases h
      refine .addsUnheard i hp fun j hj => ?_
      have hji : j≠i := by
        rintro rfl
        rw [hp] at hj
        contradiction
      exact hnone j ((Function.update_of_ne hji _ _).trans hj)
    | some j =>
      simp only [State.notifyOne] at h
      split_ifs at h with hj
      cases h
      have hji : j≠i := by
        rintro rfl
        change Function.update s.phase j .outside j=.asleep at hj
        rw [Function.update_self] at hj
        contradiction
      exact .adds i j hp hji ((Function.update_of_ne hji _ _).symm.trans hj)
  | test i =>
    simp only [next] at h
    split_ifs at h with hp hlen
    · rw [←Option.some.inj h]
      exact .takes i hp hlen
    · rw [←Option.some.inj h]
      exact .parks i hp (by omega)
  | sleep i =>
    simp only [next] at h
    split_ifs at h with hp
    cases h
    exact .sleeps i hp
  | spurious i =>
    simp only [next] at h
    split_ifs at h with hp
    cases h
    exact .wakes i hp

/-- Fewer than two to the sixty-four notifies are outstanding after the step. -/
def Outstanding (s : State ι) : Act ι → Prop
  | .add _ _ => s.initial+s.notifies+1 < modulus+s.waits
  | _ => True

instance (s : State ι) : (a : Act ι) → Decidable (Outstanding s a)
  | .add .. => inferInstanceAs (Decidable (_ < _))
  | .notify _ | .wait _ | .lock _ | .test _ | .sleep _ | .spurious _ =>
    inferInstanceAs (Decidable True)

/-- Threads which were woken and are still to test again. -/
def awake [Fintype ι] (s : State ι) : ℕ := total (fun _ p => Phase.awake p) s.phase

/-- The invariant of the semaphore. -/
structure Sound [Fintype ι] (s : State ι) : Prop where
  /-- Exactly the owner of the mutex is inside a critical section. -/
  mutex : ∀ i,(s.phase i).holds=true ↔ s.owner=some i
  /-- Whoever is about to fall asleep still sees no count. -/
  parked : ∀ i,s.phase i=.parking → s.len=0
  /-- The count is the initial one plus notifies minus waits. -/
  count : s.len+s.waits=s.initial+s.notifies
  /-- While anybody sleeps, the count is covered by threads still to test. -/
  heard : ∀ i,s.phase i=.asleep → s.len ≤ awake s

omit [DecidableEq ι] in
/-- Nobody is inside yet. -/
theorem sound_start [Fintype ι] (initial : ℕ) : Sound (State.start initial : State ι) where
  mutex _ := iff_of_false Bool.false_ne_true nofun
  parked _ h := nomatch h
  count := rfl
  heard _ h := nomatch h

/-- The mutex follows a thread which acquires, keeps or releases it. -/
theorem mutex_update {phase : ι → Phase} {owner owner' : Option ι} {i : ι} {p : Phase}
    (hm : ∀ j,(phase j).holds=true ↔ owner=some j) (hi : p.holds=true ↔ owner'=some i)
    (hothers : ∀ j,j≠i → (owner=some j ↔ owner'=some j)) (j : ι) :
    (Function.update phase i p j).holds=true ↔ owner'=some j := by
  by_cases hji : j=i
  · subst hji
    rw [Function.update_self]
    exact hi
  · rw [Function.update_of_ne hji,hm j]
    exact hothers j hji

/-- A release by the owner. -/
theorem mutex_release {phase : ι → Phase} {owner : Option ι} {i : ι} {p : Phase}
    (hm : ∀ j,(phase j).holds=true ↔ owner=some j) (hi : (phase i).holds=true)
    (hp : p.holds=false) (j : ι) :
    (Function.update phase i p j).holds=true ↔ none=some j := by
  refine mutex_update hm ?_ (fun k hk => ?_) j
  · rw [hp]
    exact iff_of_false Bool.false_ne_true nofun
  · rw [(hm i).mp hi]
    exact iff_of_false (fun h => hk (Option.some.inj h).symm) nofun

/-- Threads outside critical sections move without touching the mutex. -/
theorem mutex_move {phase : ι → Phase} {owner : Option ι} {i : ι} {p : Phase}
    (hm : ∀ j,(phase j).holds=true ↔ owner=some j) (hsame : p.holds=(phase i).holds) (j : ι) :
    (Function.update phase i p j).holds=true ↔ owner=some j :=
  mutex_update hm (by rw [hsame]; exact hm i) (fun _ _ => Iff.rfl) j

variable [Fintype ι]

omit [DecidableEq ι] in
/-- Two threads with the mutex are one. -/
theorem Sound.exclusive {s : State ι} (h : Sound s) {i j : ι} (hi : (s.phase i).holds=true)
    (hj : (s.phase j).holds=true) : i=j := by
  have ho := (h.mutex i).mp hi
  rw [(h.mutex j).mp hj] at ho
  exact (Option.some.inj ho).symm

/-- Moving a thread changes the number of awake ones by its own difference. -/
theorem awake_goto (s : State ι) (i : ι) (p : Phase) :
    awake (s.goto i p)+(s.phase i).awake=awake s+p.awake :=
  total_update (fun _ p => Phase.awake p) s.phase i p

/-- No other thread is parking while one is in its critical section. -/
theorem Sound.unparked {s : State ι} (h : Sound s) {i : ι} (hi : (s.phase i).holds=true)
    {p : Phase} (hp : p≠.parking) (j : ι) : Function.update s.phase i p j≠.parking := by
  by_cases hji : j=i
  · subst hji
    rw [Function.update_self]
    exact hp
  · rw [Function.update_of_ne hji]
    intro hj
    exact hji (h.exclusive (by rw [hj]; rfl) hi)

omit [Fintype ι] in
/-- Sleepers of a state in which one thread moved. -/
theorem asleep_of_update {phase : ι → Phase} {i j : ι} {p : Phase} (hp : p≠.asleep)
    (h : Function.update phase i p j=.asleep) : phase j=.asleep := by
  by_cases hji : j=i
  · subst hji
    rw [Function.update_self] at h
    exact False.elim (hp h)
  · rwa [Function.update_of_ne hji] at h

omit [DecidableEq ι] in
/-- A notify raises the count by exactly one. -/
theorem Sound.len_add {s : State ι} (h : Sound s) {i : ι} {sleeper : Option ι}
    (hok : Outstanding s (.add i sleeper)) : increment s.len=s.len+1 := by
  have hcount := h.count
  refine increment_eq ?_
  change s.initial+s.notifies+1 < modulus+s.waits at hok
  omega

/-- Adding and waking somebody covers the new count by the woken thread. -/
theorem sound_adds {s : State ι} {i j : ι} (h : Sound s) (hi : s.phase i=.adding) (hji : j≠i)
    (hj : s.phase j=.asleep) (hlen : increment s.len=s.len+1) :
    Sound (State.goto {s.goto i .outside with
      len := increment s.len
      owner := none
      notifies := s.notifies+1} j .woken) := by
  have hholds : (s.phase i).holds=true := by rw [hi]; rfl
  have hj' : (s.goto i .outside).phase j=.asleep := (Function.update_of_ne hji _ _).trans hj
  have hawake : awake ((s.goto i .outside).goto j .woken)=awake s+1 := by
    have hfirst := awake_goto s i .outside
    have hsecond := awake_goto (s.goto i .outside) j .woken
    rw [hi] at hfirst
    rw [hj'] at hsecond
    simp only [Phase.awake] at hfirst hsecond
    omega
  refine ⟨fun k => ?_,fun k hk => ?_,?_,fun k hk => ?_⟩
  · refine mutex_move (mutex_release h.mutex hholds rfl) ?_ k
    change Phase.holds .woken=((s.goto i .outside).phase j).holds
    rw [hj']
    rfl
  · by_cases hkj : k=j
    · subst hkj
      change Function.update (s.goto i .outside).phase k .woken k=.parking at hk
      rw [Function.update_self] at hk
      contradiction
    · refine False.elim (h.unparked hholds (p := .outside) nofun k ?_)
      exact (Function.update_of_ne hkj _ _).symm.trans hk
  · change increment s.len+s.waits=s.initial+(s.notifies+1)
    have hcount := h.count
    omega
  · change increment s.len ≤ awake ((s.goto i .outside).goto j .woken)
    have hheard := h.heard j hj
    omega

/-- Adding while nobody sleeps. -/
theorem sound_addsUnheard {s : State ι} {i : ι} (h : Sound s) (hi : s.phase i=.adding)
    (hnone : ∀ j,s.phase j≠.asleep) (hlen : increment s.len=s.len+1) :
    Sound {s.goto i .outside with
      len := increment s.len
      owner := none
      notifies := s.notifies+1} := by
  have hholds : (s.phase i).holds=true := by rw [hi]; rfl
  refine ⟨mutex_release h.mutex hholds rfl,fun k hk => ?_,?_,fun k hk => ?_⟩
  · exact False.elim (h.unparked hholds (p := .outside) nofun k hk)
  · change increment s.len+s.waits=s.initial+(s.notifies+1)
    have hcount := h.count
    omega
  · exact False.elim (hnone k (asleep_of_update (p := .outside) nofun hk))

/-- A test which takes one uses up the thread's own wake-up, if it had one. -/
theorem sound_takes {s : State ι} {i : ι} (h : Sound s)
    (hi : s.phase i=.testing ∨ s.phase i=.retesting) (hpos : 0 < s.len) :
    Sound {s.goto i .outside with
      len := decrement s.len
      owner := none
      waits := s.waits+1} := by
  have hholds : (s.phase i).holds=true := by rcases hi with hi|hi <;> rw [hi] <;> rfl
  have hone : (s.phase i).awake ≤ 1 := by
    rcases hi with hi|hi <;> rw [hi]
    · exact Nat.zero_le _
    · exact Nat.le_refl _
  have hawake := awake_goto s i .outside
  refine ⟨mutex_release h.mutex hholds rfl,fun k hk => ?_,?_,fun k hk => ?_⟩
  · exact False.elim (h.unparked hholds (p := .outside) nofun k hk)
  · change decrement s.len+(s.waits+1)=s.initial+s.notifies
    have hcount := h.count
    rw [decrement_eq hpos]
    omega
  · change decrement s.len ≤ awake (s.goto i .outside)
    have hheard := h.heard k (asleep_of_update (p := .outside) nofun hk)
    have hzero : Phase.outside.awake=0 := rfl
    rw [decrement_eq hpos]
    omega

/-- A thread with the mutex and without a count moves on without changing any
number. -/
theorem sound_uncounted {s : State ι} {i : ι} {p : Phase} {owner : Option ι} (h : Sound s)
    (hlen : s.len=0) (hm : ∀ j,(Function.update s.phase i p j).holds=true ↔ owner=some j) :
    Sound {s.goto i p with owner := owner} := by
  refine ⟨hm,fun _ _ => hlen,h.count,fun k _ => ?_⟩
  change s.len ≤ awake (s.goto i p)
  omega

/-- A thread which neither falls asleep nor stops being awake. -/
theorem sound_moves {s : State ι} {i : ι} {p : Phase} {owner : Option ι} (h : Sound s)
    (hp : p≠.asleep ∧ p≠.parking) (hle : (s.phase i).awake ≤ p.awake)
    (hm : ∀ j,(Function.update s.phase i p j).holds=true ↔ owner=some j) :
    Sound {s.goto i p with owner := owner} := by
  have hawake := awake_goto s i p
  refine ⟨hm,fun k hk => ?_,h.count,fun k hk => ?_⟩
  · by_cases hki : k=i
    · subst hki
      change Function.update s.phase k p k=.parking at hk
      rw [Function.update_self] at hk
      exact False.elim (hp.2 hk)
    · exact h.parked k ((Function.update_of_ne hki _ _).symm.trans hk)
  · change s.len ≤ awake (s.goto i p)
    have hheard := h.heard k (asleep_of_update hp.1 hk)
    omega

/-- Every step with fewer than two to the sixty-four outstanding notifies keeps
the invariant and the bound on the count. -/
theorem sound_step {s s' : State ι} {a : Act ι} (hi : Sound s ∧ s.len < modulus)
    (hok : Outstanding s a) (hn : next s a=some s') : Sound s' ∧ s'.len < modulus := by
  obtain ⟨h,hlt⟩ := hi
  cases next_effect hn with
  | enters _ i p hi hp =>
    have hholds : p.holds=(s.phase i).holds := by
      rw [hi]
      rcases hp with rfl|rfl <;> rfl
    have hmutex := mutex_move h.mutex hholds
    refine ⟨sound_moves h ?_ ?_ hmutex,hlt⟩
    · rcases hp with rfl|rfl <;> exact ⟨nofun,nofun⟩
    · rw [hi]
      exact Nat.zero_le _
  | locks i p q ho hi hpq =>
    have hothers : ∀ j,j≠i → (s.owner=some j ↔ some i=some j) := by
      intro j hj
      rw [ho]
      exact iff_of_false nofun fun h => hj (Option.some.inj h).symm
    refine ⟨sound_moves h ?_ ?_ (mutex_update h.mutex ?_ hothers),hlt⟩
    · rcases hpq with ⟨-,rfl⟩|⟨-,rfl⟩|⟨-,rfl⟩ <;>
        exact ⟨nofun,nofun⟩
    · rw [hi]
      rcases hpq with ⟨rfl,rfl⟩|⟨rfl,rfl⟩|⟨rfl,rfl⟩ <;> exact Nat.le_refl _
    · rcases hpq with ⟨-,rfl⟩|⟨-,rfl⟩|⟨-,rfl⟩ <;> exact iff_of_true rfl rfl
  | adds i j hi hji hj =>
    exact ⟨sound_adds h hi hji hj (h.len_add hok),increment_lt _⟩
  | addsUnheard i hi hnone =>
    exact ⟨sound_addsUnheard h hi hnone (h.len_add hok),increment_lt _⟩
  | takes i hi hlen =>
    refine ⟨sound_takes h hi hlen,?_⟩
    change decrement s.len < modulus
    rw [decrement_eq hlen]
    omega
  | parks i hi hlen =>
    have hholds : (s.phase i).holds=true := by rcases hi with hi|hi <;> rw [hi] <;> rfl
    exact ⟨sound_uncounted h hlen (mutex_move h.mutex (by rw [hholds]; rfl)),hlt⟩
  | sleeps i hi =>
    have hholds : (s.phase i).holds=true := by rw [hi]; rfl
    exact ⟨sound_uncounted h (h.parked i hi) (mutex_release h.mutex hholds rfl),hlt⟩
  | wakes i hi =>
    have hholds : Phase.woken.holds=(s.phase i).holds := by
      rw [hi]
      rfl
    have hmutex := mutex_move h.mutex hholds
    refine ⟨sound_moves h ⟨nofun,nofun⟩ ?_ hmutex,hlt⟩
    rw [hi]
    exact Nat.zero_le _

/-- The invariant holds in every state of every interleaving. -/
theorem sound_of_reaches {initial : ℕ} {acts : List (Act ι)} {s : State ι}
    (hinit : initial < modulus) (h : Reaches next Outstanding (.start initial) acts s) :
    Sound s ∧ s.len < modulus :=
  h.invariant (I := fun s => Sound s ∧ s.len < modulus) ⟨sound_start initial,hinit⟩
    fun hi hok hn => sound_step hi hok hn

/-- What the channels rely on: a step leaves the count alone, or it is one
notify or one wait of the counting semaphore. -/
theorem next_refines {s s' : State ι} {a : Act ι} (hi : Sound s ∧ s.len < modulus)
    (hok : Outstanding s a) (hn : next s a=some s') :
    (⟨s'.len⟩ : Semaphore)=⟨s.len⟩ ∨ (⟨s'.len⟩ : Semaphore)=Semaphore.notify ⟨s.len⟩ ∨
      Semaphore.wait ⟨s.len⟩=some ⟨s'.len⟩ := by
  cases next_effect hn with
  | enters | locks | parks | sleeps | wakes => exact .inl rfl
  | adds i j hi' hji hj => exact .inr (.inl (congrArg Semaphore.mk (hi.1.len_add hok)))
  | addsUnheard i hi' hnone => exact .inr (.inl (congrArg Semaphore.mk (hi.1.len_add hok)))
  | takes i hi' hlen =>
    refine .inr (.inr (Semaphore.wait_eq_some.mpr ?_))
    change s.len=decrement s.len+1
    rw [decrement_eq hlen]
    omega

/-- The constructor's count is never forgotten. -/
theorem initial_of_reaches {initial : ℕ} {acts : List (Act ι)} {s : State ι}
    (h : Reaches next Outstanding (.start initial) acts s) : s.initial=initial := by
  refine h.invariant (I := fun s => s.initial=initial) rfl fun {s a s'} hi _ hn => ?_
  cases next_effect hn with
  | enters | locks | adds | addsUnheard | takes | parks | sleeps | wakes => exact hi

omit [DecidableEq ι] in
/-- Threads still to test are found while there are any. -/
theorem exists_awake {s : State ι} (h : 0 < awake s) :
    ∃ j,s.phase j=.woken ∨ s.phase j=.retesting := by
  by_contra hnone
  push Not at hnone
  have hzero : awake s=0 := by
    refine total_eq_zero _ _ fun j => ?_
    obtain ⟨hwoken,hretesting⟩ := hnone j
    cases hp : s.phase j with
    | woken => exact False.elim (hwoken hp)
    | retesting => exact False.elim (hretesting hp)
    | _ => rfl
  omega

/-- Conservation and no lost wake-up. In every state of every interleaving of
any threads inside `notify` and `wait`: the count is the initial one plus the
completed notifies minus the completed waits; it is only lowered when it is
positive; and whenever it is positive and somebody sleeps, some thread was
woken and is still to test the predicate. -/
theorem count_conserved_no_lost_wakeup {initial : ℕ} {acts : List (Act ι)} {s : State ι}
    (hinit : initial < modulus) (h : Reaches next Outstanding (.start initial) acts s) :
    s.len+s.waits=initial+s.notifies ∧
      (∀ a s',next s a=some s' → s'.waits≠s.waits → 0 < s.len ∧ s'.len+1=s.len) ∧
      ¬(0 < s.len ∧ (∃ i,s.phase i=.asleep) ∧
        ∀ j,s.phase j≠.woken ∧ s.phase j≠.retesting) := by
  have hsound := (sound_of_reaches hinit h).1
  refine ⟨?_,fun a s' hn hwaits => ?_,fun ⟨hpos,⟨i,hi⟩,hnone⟩ => ?_⟩
  · rw [hsound.count,initial_of_reaches h]
  · cases next_effect hn with
    | takes i hi hlen =>
      refine ⟨hlen,?_⟩
      change decrement s.len+1=s.len
      rw [decrement_eq hlen]
      omega
    | _ => exact False.elim (hwaits rfl)
  · have hheard := hsound.heard i hi
    obtain ⟨j,hj|hj⟩ := exists_awake (by omega : 0 < awake s)
    · exact (hnone j).1 hj
    · exact (hnone j).2 hj

/-- Two threads sleep; the first notify wakes one of them, a newcomer takes its
count, and it falls asleep again; the other one wakes spuriously, tests in
vain, and then the second notify wakes the first thread once more. -/
def stolenRun : List (Act (Fin 4)) :=
  [.wait 0,.lock 0,.test 0,.sleep 0,.wait 1,.lock 1,.test 1,.sleep 1,.notify 2,.wait 3,.lock 2,
    .add 2 (some 0),.lock 3,.test 3,.lock 0,.test 0,.sleep 0,.spurious 1,.lock 1,.test 1,.sleep 1,
    .notify 2,.lock 2,.add 2 (some 0)]

/-- At the end one thread sleeps under a positive count and the other one is
still to test. -/
theorem count_conserved_no_lost_wakeup_stolen :
    ∃ s : State (Fin 4),Reaches next Outstanding (.start 0) stolenRun s ∧
      s.len=1 ∧ s.phase 1=.asleep ∧ s.phase 0=.woken ∧ s.len+s.waits=0+s.notifies := by
  obtain ⟨s,hs,hseen⟩ := reaches_of_replay next Outstanding (.start 0) stolenRun
    (fun s => (s.len,s.phase 1,s.phase 0)) (1,.asleep,.woken) (by decide +kernel)
  simp only [Prod.mk.injEq] at hseen
  exact ⟨s,hs,hseen.1,hseen.2.1,hseen.2.2,
    (count_conserved_no_lost_wakeup modulus_pos hs).1⟩

end FastEventSystem.SemaphoreThreads
