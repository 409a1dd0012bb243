import FastEventSystem.SyncRegistry
import FastEventSystem.GuardedRuns
import FastEventSystem.PartyTotals

/-!
# Overlapping disconnects of one connection

The body of `internal_connection::disconnect` taken apart: test the flag, run
the deleter, clear the flag. Invocations on one connection come from different
callers, or from inside the deleter of an earlier one, since erasing the node
destroys the callable and whatever it captured. Their steps interleave in any
order; nested invocations are the orders in which the inner one finishes first.
How often the deleter was run is a history.
-/

namespace FastEventSystem.DisconnectSteps

open SyncRegistry GuardedRuns PartyTotals

/-- Where an invocation stands. -/
inductive Phase where
  /-- Not called yet. -/
  | idle
  /-- The flag was raised when it was tested. -/
  | tested
  /-- Inside `registered.erase(it)`. -/
  | erasing
  /-- The deleter has returned. -/
  | erased
  /-- Returned. -/
  | done
  deriving DecidableEq

/-- Past a successful test and before the flag is cleared. -/
def Phase.between : Phase → Bool
  | .tested | .erasing | .erased => true
  | _ => false

/-- Past a successful test and before the deleter. -/
def Phase.armed : Phase → ℕ
  | .tested => 1
  | _ => 0

/-- One connection, the list it refers to and all invocations. -/
structure State (ι μ : Type*) where
  /-- The connection, with the flag `_connected` and the captured iterator. -/
  conn : InternalConnection μ
  /-- The `sync` with the list `_registered`. -/
  sync : Sync μ
  /-- Every invocation's position. -/
  phase : ι → Phase
  /-- How often a test found the flag raised. -/
  passes : ℕ
  /-- How often `registered.erase(it)` was run. -/
  erasures : ℕ

variable {ι μ : Type*}

/-- A connected connection and no invocation yet. -/
def State.start (conn : InternalConnection μ) (sync : Sync μ) : State ι μ :=
  ⟨{conn with connected := true},sync,fun _ => .idle,0,0⟩

/-- One step of an invocation. -/
inductive Act (ι : Type*) where
  /-- Call and test `_connected`. -/
  | test (i : ι)
  /-- Run the deleter, which erases the node. -/
  | erase (i : ι)
  /-- The deleter returns. -/
  | finish (i : ι)
  /-- Clear `_connected` and return. -/
  | clear (i : ι)
  deriving DecidableEq

variable [DecidableEq ι]

/-- Move one invocation. -/
def State.goto (s : State ι μ) (i : ι) (p : Phase) : State ι μ :=
  {s with phase := Function.update s.phase i p}

/-- Perform one step. Erasing a second time is undefined; here it leaves the
list as it is. -/
def next (s : State ι μ) : Act ι → Option (State ι μ)
  | .test i =>
    if s.phase i=.idle then
      if s.conn.connected=true then some {s.goto i .tested with passes := s.passes+1}
      else some (s.goto i .done)
    else none
  | .erase i =>
    if s.phase i=.tested then some {s.goto i .erasing with
      sync := (s.sync.erase s.conn.it).getD s.sync
      erasures := s.erasures+1}
    else none
  | .finish i => if s.phase i=.erasing then some (s.goto i .erased) else none
  | .clear i =>
    if s.phase i=.erased then some {s.goto i .done with
      conn := {s.conn with connected := false}}
    else none

/-- An invocation tests the flag only while no other one is past its test and
has not cleared the flag yet. -/
def Alone (s : State ι μ) : Act ι → Prop
  | .test _ => ∀ j,(s.phase j).between=false
  | _ => True

instance [Fintype ι] (s : State ι μ) : (a : Act ι) → Decidable (Alone s a)
  | .test _ => inferInstanceAs (Decidable (∀ _,_))
  | .erase _ | .finish _ | .clear _ => inferInstanceAs (Decidable True)

/-- Everything an accepted step can do. -/
inductive Effect (s : State ι μ) : Act ι → State ι μ → Prop
  | passes (i : ι) : s.phase i=.idle → s.conn.connected=true →
      Effect s (.test i) {s.goto i .tested with passes := s.passes+1}
  | declines (i : ι) : s.phase i=.idle → s.conn.connected=false →
      Effect s (.test i) (s.goto i .done)
  | erases (i : ι) : s.phase i=.tested →
      Effect s (.erase i) {s.goto i .erasing with
        sync := (s.sync.erase s.conn.it).getD s.sync
        erasures := s.erasures+1}
  | finishes (i : ι) : s.phase i=.erasing → Effect s (.finish i) (s.goto i .erased)
  | clears (i : ι) : s.phase i=.erased →
      Effect s (.clear i) {s.goto i .done with conn := {s.conn with connected := false}}

/-- The step function has no other effects. -/
theorem next_effect {s s' : State ι μ} {a : Act ι} (h : next s a=some s') : Effect s a s' := by
  cases a with
  | test i =>
    simp only [next] at h
    split_ifs at h with hp hc
    · cases h
      exact .passes i hp hc
    · cases h
      exact .declines i hp (Bool.eq_false_iff.mpr hc)
  | erase i =>
    simp only [next] at h
    split_ifs at h with hp
    cases h
    exact .erases i hp
  | finish i =>
    simp only [next] at h
    split_ifs at h with hp
    cases h
    exact .finishes i hp
  | clear i =>
    simp only [next] at h
    split_ifs at h with hp
    cases h
    exact .clears i hp

/-- At most one invocation has passed the test. While it is inside the flag is
raised, and afterwards it is cleared. -/
structure Single (s : State ι μ) (holder : Option ι) : Prop where
  /-- The invocation between its test and its clearing, if any. -/
  inside : ∀ j,(s.phase j).between=true ↔ holder=some j
  /-- The flag is raised while somebody is inside. -/
  raised : holder≠none → s.conn.connected=true
  /-- Nobody has passed only while the flag is raised and nobody is inside. -/
  passes : s.passes=if s.conn.connected=true ∧ holder=none then 0 else 1

omit [DecidableEq ι] in
/-- No invocation yet. -/
theorem single_start (conn : InternalConnection μ) (sync : Sync μ) :
    Single (State.start conn sync : State ι μ) none where
  inside _ := iff_of_false Bool.false_ne_true nofun
  raised h := False.elim (h rfl)
  passes := rfl

/-- Who is inside after one invocation moved. -/
theorem inside_update {phase : ι → Phase} {i : ι} {p : Phase} {holder holder' : Option ι}
    (h : ∀ j,(phase j).between=true ↔ holder=some j) (hi : p.between=true ↔ holder'=some i)
    (hothers : ∀ j,j≠i → (holder=some j ↔ holder'=some j)) (j : ι) :
    (Function.update phase i p j).between=true ↔ holder'=some j := by
  by_cases hji : j=i
  · subst hji
    rw [Function.update_self]
    exact hi
  · rw [Function.update_of_ne hji,h j]
    exact hothers j hji

/-- A step which keeps an invocation inside or outside keeps who is inside. -/
theorem Single.stays {s : State ι μ} {holder : Option ι} {i : ι} {p : Phase}
    (h : Single s holder) (hsame : p.between=(s.phase i).between) (j : ι) :
    (Function.update s.phase i p j).between=true ↔ holder=some j :=
  inside_update h.inside (by rw [hsame]; exact h.inside i) (fun _ _ => Iff.rfl) j

/-- An unaccompanied step keeps the invariant. -/
theorem single_step {s s' : State ι μ} {a : Act ι} {holder : Option ι} (h : Single s holder)
    (hok : Alone s a) (hn : next s a=some s') : ∃ holder',Single s' holder' := by
  cases next_effect hn with
  | passes i hi hc =>
    have hnone : holder=none := by
      cases holder with
      | none => rfl
      | some j =>
        have hj := (h.inside j).mpr rfl
        rw [hok j] at hj
        contradiction
    have hpasses := h.passes
    rw [if_pos ⟨hc,hnone⟩] at hpasses
    refine ⟨some i,inside_update h.inside (iff_of_true rfl rfl) ?_,fun _ => hc,?_⟩
    · intro j hj
      rw [hnone]
      exact iff_of_false nofun fun heq => hj (Option.some.inj heq).symm
    · change s.passes+1=if s.conn.connected=true ∧ some i=none then 0 else 1
      rw [hpasses,if_neg (fun hboth => nomatch hboth.2)]
  | declines i hi hc =>
    exact ⟨holder,h.stays (by rw [hi]; rfl),h.raised,h.passes⟩
  | erases i hi => exact ⟨holder,h.stays (by rw [hi]; rfl),h.raised,h.passes⟩
  | finishes i hi => exact ⟨holder,h.stays (by rw [hi]; rfl),h.raised,h.passes⟩
  | clears i hi =>
    have hholder : holder=some i := (h.inside i).mp (by rw [hi]; rfl)
    have hpasses := h.passes
    rw [hholder,if_neg (fun hboth => nomatch hboth.2)] at hpasses
    refine ⟨none,inside_update h.inside (iff_of_false Bool.false_ne_true nofun) ?_,
      fun hne => False.elim (hne rfl),?_⟩
    · intro j hj
      rw [hholder]
      exact iff_of_false (fun heq => hj (Option.some.inj heq).symm) nofun
    · change s.passes=if false=true ∧ none=none then 0 else 1
      rw [hpasses,if_neg (fun hboth => Bool.false_ne_true hboth.1)]

/-- A test made while another invocation is inside passes as well. -/
theorem overlapping_test {s s' : State ι μ} {a : Act ι} {holder : Option ι} (h : Single s holder)
    (hbad : ¬Alone s a) (hn : next s a=some s') : 2 ≤ s'.passes := by
  cases a with
  | test i =>
    unfold Alone at hbad
    push Not at hbad
    obtain ⟨j,hj⟩ := hbad
    have hholder : holder=some j := (h.inside j).mp (by simpa using hj)
    have hpasses := h.passes
    rw [hholder,if_neg (fun hboth => nomatch hboth.2)] at hpasses
    have hraised := h.raised (by rw [hholder]; exact nofun)
    cases next_effect hn with
    | passes _ hi hc =>
      change 2 ≤ s.passes+1
      omega
    | declines _ hi hc =>
      rw [hraised] at hc
      contradiction
  | erase i => exact False.elim (hbad trivial)
  | finish i => exact False.elim (hbad trivial)
  | clear i => exact False.elim (hbad trivial)

/-- Passed tests are never forgotten. -/
theorem passes_step {s s' : State ι μ} {a : Act ι} (hn : next s a=some s') :
    s.passes ≤ s'.passes := by
  cases next_effect hn with
  | passes => exact Nat.le_succ _
  | declines | erases | finishes | clears => exact Nat.le_refl _

/-- Every ordering is one without overlapping invocations, or at least two of
them pass the test. -/
theorem alone_or_two_passes {conn : InternalConnection μ} {sync : Sync μ} {acts : List (Act ι)}
    {s : State ι μ} (h : Reaches next Unrestricted (.start conn sync) acts s) :
    (Reaches next Alone (.start conn sync) acts s ∧ ∃ holder,Single s holder) ∨ 2 ≤ s.passes := by
  induction h with
  | start => exact .inl ⟨.start,none,single_start conn sync⟩
  | @step acts s s' a _ _ hn ih =>
    rcases ih with ⟨halone,holder,hsingle⟩|htwo
    · by_cases hok : Alone s a
      · exact .inl ⟨halone.step a hok hn,single_step hsingle hok hn⟩
      · exact .inr (overlapping_test hsingle hok hn)
    · exact .inr (htwo.trans (passes_step hn))

/-- An invocation which runs alone from its test to its return is the
disconnect of the registry. -/
theorem uninterrupted_disconnect {r : Registry μ} {c : ℕ} {conn : InternalConnection μ}
    {S : Sync μ} (i : ι) (hc : r.heap[c]?=some conn) (hflag : conn.connected=true)
    (hS : r.sync conn.registered=some S) (hit : conn.it∈S.addrs) :
    ∃ s : State ι μ,Reaches next Alone (.start conn S)
        [.test i,.erase i,.finish i,.clear i] s ∧
      r.disconnectConn c=some ⟨r.syncs.set conn.registered (some s.sync),r.heap.set c s.conn⟩ := by
  have herase : S.erase conn.it=
      some {S with registered := S.registered.eraseP fun n => n.addr=conn.it} := if_pos hit
  have htest : Reaches next Alone (State.start conn S : State ι μ) [Act.test i]
      {(State.start conn S).goto i .tested with passes := 1} :=
    Reaches.start.step (Act.test i) (fun _ => rfl) (by simp only [next,State.start,if_true])
  have herased := htest.step (Act.erase i) trivial (if_pos (Function.update_self ..))
  have hfinished := herased.step (Act.finish i) trivial (if_pos (Function.update_self ..))
  have hrun := hfinished.step (Act.clear i) trivial (if_pos (Function.update_self ..))
  refine ⟨_,hrun,?_⟩
  simp only [Registry.disconnectConn,hc,hflag,hS,if_true,Option.bind_some,herase,State.goto,
    State.start,Option.getD_some]

variable [Fintype ι]

/-- Invocations past a successful test and before the deleter. -/
def armed (s : State ι μ) : ℕ := total (fun _ p => Phase.armed p) s.phase

/-- Whoever passes the test runs the deleter, unless it is still before it. -/
theorem erasures_of_reaches {conn : InternalConnection μ} {sync : Sync μ} {acts : List (Act ι)}
    {s : State ι μ} (h : Reaches next Unrestricted (.start conn sync) acts s) :
    s.erasures+armed s=s.passes := by
  have hgoto : ∀ (s : State ι μ) i p,armed (s.goto i p)+(s.phase i).armed=armed s+p.armed :=
    fun s i p => total_update (fun _ p => Phase.armed p) s.phase i p
  refine h.invariant (I := fun s => s.erasures+armed s=s.passes) ?_ fun {s a s'} hi _ hn => ?_
  · have hzero : armed (State.start conn sync : State ι μ)=0 := total_eq_zero _ _ fun _ => rfl
    rw [hzero]
    rfl
  · cases next_effect hn with
    | passes i hp hc =>
      have hmove := hgoto s i .tested
      simp only [hp,Phase.armed] at hmove
      change s.erasures+armed (s.goto i .tested)=s.passes+1
      omega
    | declines i hp hc =>
      have hmove := hgoto s i .done
      simp only [hp,Phase.armed] at hmove
      change s.erasures+armed (s.goto i .done)=s.passes
      omega
    | erases i hp =>
      have hmove := hgoto s i .erasing
      simp only [hp,Phase.armed] at hmove
      change s.erasures+1+armed (s.goto i .erasing)=s.passes
      omega
    | finishes i hp =>
      have hmove := hgoto s i .erased
      simp only [hp,Phase.armed] at hmove
      change s.erasures+armed (s.goto i .erased)=s.passes
      omega
    | clears i hp =>
      have hmove := hgoto s i .done
      simp only [hp,Phase.armed] at hmove
      change s.erasures+armed (s.goto i .done)=s.passes
      omega

/-- In every ordering in which no invocation tests the flag while another one
is between its test and its clearing, the node is erased at most once; and in
every ordering in which all invocations that passed the test have run the
deleter, it is erased at most once only then. -/
theorem erased_once_iff_alone (conn : InternalConnection μ) (sync : Sync μ)
    {acts : List (Act ι)} {s : State ι μ}
    (h : Reaches next Unrestricted (.start conn sync) acts s) :
    (Reaches next Alone (.start conn sync) acts s → s.erasures ≤ 1) ∧
      ((∀ i,s.phase i≠.tested) → s.erasures ≤ 1 →
        Reaches next Alone (.start conn sync) acts s) := by
  have herasures := erasures_of_reaches h
  refine ⟨fun halone => ?_,fun hrun hone => ?_⟩
  · obtain ⟨holder,hsingle⟩ := halone.invariant (I := fun s => ∃ holder,Single s holder)
      ⟨none,single_start conn sync⟩ fun ⟨_,hi⟩ hok hn => single_step hi hok hn
    have hpasses : s.passes ≤ 1 := by
      rw [hsingle.passes]
      split <;> omega
    omega
  · have hzero : armed s=0 := by
      refine total_eq_zero _ _ fun i => ?_
      cases hp : s.phase i with
      | tested => exact False.elim (hrun i hp)
      | _ => rfl
    rcases alone_or_two_passes h with ⟨halone,-⟩|htwo
    · exact halone
    · omega

/-- A connection whose handler lies at address 100. -/
def sample : InternalConnection ℕ := ⟨100,0,true,7⟩

/-- A `sync` with that handler and another one. -/
def sampleSync : Sync ℕ := ⟨[⟨100,7,0⟩,⟨101,8,1⟩],[0,1]⟩

/-- Three callers disconnect one after another. -/
def repeatedRun : List (Act (Fin 3)) :=
  [.test 0,.erase 0,.finish 0,.clear 0,.test 1,.test 2]

/-- Repeated disconnects which do not overlap erase once. -/
theorem erased_once_iff_alone_repeated :
    ∃ s : State (Fin 3) ℕ,Reaches next Unrestricted (.start sample sampleSync) repeatedRun s ∧
      s.sync=⟨[⟨101,8,1⟩],[0,1]⟩ ∧ s.erasures ≤ 1 := by
  obtain ⟨s,hs,hseen⟩ := reaches_of_replay next Alone (.start sample sampleSync) repeatedRun
    State.sync ⟨[⟨101,8,1⟩],[0,1]⟩ (by decide)
  have hall : Reaches next Unrestricted _ _ s := hs.mono fun _ _ _ => trivial
  exact ⟨s,hall,hseen,(erased_once_iff_alone sample sampleSync hall).1 hs⟩

/-- The handler captured a `connection` object with its own handle: erasing the
node destroys that object, which disconnects once more. -/
def nestedRun : List (Act (Fin 2)) :=
  [.test 0,.erase 0,.test 1,.erase 1,.finish 1,.clear 1,.finish 0,.clear 0]

/-- The nested disconnect finds the flag still raised and erases the same node
again. -/
theorem nested_disconnect_erases_twice :
    ∃ s : State (Fin 2) ℕ,Reaches next Unrestricted (.start sample sampleSync) nestedRun s ∧
      s.erasures=2 ∧ ¬s.erasures ≤ 1 := by
  obtain ⟨s,hs,hseen⟩ := reaches_of_replay next Unrestricted (.start sample sampleSync) nestedRun
    State.erasures 2 (by decide)
  exact ⟨s,hs,hseen,by omega⟩

end FastEventSystem.DisconnectSteps
