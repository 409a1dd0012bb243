import Mathlib.Data.Nat.Count

/-!
# Tickets which are granted or refused out of order

Numbers are drawn in order, and later each is granted or refused, in any order.
A number may be granted only if it is below a limit once the refused numbers
before it are taken off. Then no more numbers are granted than the limit, no
matter how many numbers are still undecided in between. Nothing below mentions
a particular program.
-/

namespace FastEventSystem.TicketFates

/-- What became of a number. -/
inductive Fate where
  /-- Nothing yet. -/
  | undecided
  /-- Granted. -/
  | granted
  /-- Refused. -/
  | refused
  deriving DecidableEq

/-- Granted numbers below a bound. -/
def granted (fate : ℕ → Fate) (bound : ℕ) : ℕ := Nat.count (fun k => fate k=.granted) bound

/-- Refused numbers below a bound. -/
def refused (fate : ℕ → Fate) (bound : ℕ) : ℕ := Nat.count (fun k => fate k=.refused) bound

/-- Decide the `n` numbers from `first` on: grant the first `g`, refuse the others. -/
def judge (fate : ℕ → Fate) (first n g : ℕ) (k : ℕ) : Fate :=
  if first ≤ k ∧ k < first+n then (if k < first+g then .granted else .refused) else fate k

/-- No number is both. -/
theorem granted_add_refused_le (fate : ℕ → Fate) (bound : ℕ) :
    granted fate bound+refused fate bound ≤ bound := by
  induction bound with
  | zero => exact le_rfl
  | succ bound ih =>
    unfold granted refused at ih ⊢
    rw [Nat.count_succ,Nat.count_succ]
    cases fate bound <;> simp only [reduceCtorEq,if_true,if_false] <;> omega

/-- Every granted number was below the limit without the refused ones before
it, so there are no more of them than the limit. -/
theorem granted_le {fate : ℕ → Fate} {limit bound : ℕ}
    (h : ∀ k < bound,fate k=.granted → k < limit+refused fate k) :
    granted fate bound ≤ limit := by
  induction bound with
  | zero => exact Nat.zero_le _
  | succ bound ih =>
    have hbelow := ih fun k hk => h k (by omega)
    have hle := granted_add_refused_le fate bound
    have hlast := h bound (Nat.lt_succ_self bound)
    unfold granted at hbelow hle ⊢
    rw [Nat.count_succ]
    split
    · -- The last number is the largest granted one: all others are before it.
      rename_i hgranted
      have hlt := hlast hgranted
      omega
    · exact hbelow

/-- More numbers are refused below a larger bound. -/
theorem refused_mono (fate : ℕ → Fate) {m n : ℕ} (h : m ≤ n) : refused fate m ≤ refused fate n :=
  Nat.count_monotone _ h

section Judging

variable {fate : ℕ → Fate} {first n g : ℕ}

/-- Numbers which are decided now were undecided. -/
def Open (fate : ℕ → Fate) (first n : ℕ) : Prop :=
  ∀ k,first ≤ k → k < first+n → fate k=.undecided

/-- Open numbers behind a bound are not granted. -/
theorem granted_add (hopen : Open fate first n) : granted fate (first+n)=granted fate first := by
  have hnone : Nat.count (fun k => fate (first+k)=.granted) n=0 := by
    refine Nat.count_iff_forall_not.mpr fun k hk => ?_
    rw [hopen (first+k) (by omega) (by omega)]
    exact Fate.noConfusion
  unfold granted
  rw [Nat.count_add,hnone,Nat.add_zero]

/-- Open numbers behind a bound are not refused. -/
theorem refused_add (hopen : Open fate first n) : refused fate (first+n)=refused fate first := by
  have hnone : Nat.count (fun k => fate (first+k)=.refused) n=0 := by
    refine Nat.count_iff_forall_not.mpr fun k hk => ?_
    rw [hopen (first+k) (by omega) (by omega)]
    exact Fate.noConfusion
  unfold refused
  rw [Nat.count_add,hnone,Nat.add_zero]

/-- Deciding open numbers adds the granted ones. -/
theorem granted_judge (hopen : Open fate first n) (hg : g ≤ n) (bound : ℕ) :
    granted (judge fate first n g) bound=granted fate bound+(min bound (first+g)-first) := by
  induction bound with
  | zero =>
    have hzero : min 0 (first+g)-first=0 := by omega
    rw [hzero]
    rfl
  | succ bound ih =>
    unfold granted at ih ⊢
    rw [Nat.count_succ,Nat.count_succ,ih]
    by_cases hrange : first ≤ bound ∧ bound < first+n
    · have hold := hopen bound hrange.1 hrange.2
      simp only [judge,if_pos hrange,hold,reduceCtorEq,if_false]
      split <;> simp only [reduceCtorEq,if_true,if_false] <;> omega
    · simp only [judge,if_neg hrange]
      omega

/-- Deciding open numbers adds the refused ones. -/
theorem refused_judge (hopen : Open fate first n) (hg : g ≤ n) (bound : ℕ) :
    refused (judge fate first n g) bound=
      refused fate bound+(min bound (first+n)-min bound (first+g)) := by
  induction bound with
  | zero =>
    have hzero : min 0 (first+n)-min 0 (first+g)=0 := by omega
    rw [hzero]
    rfl
  | succ bound ih =>
    unfold refused at ih ⊢
    rw [Nat.count_succ,Nat.count_succ,ih]
    by_cases hrange : first ≤ bound ∧ bound < first+n
    · have hold := hopen bound hrange.1 hrange.2
      simp only [judge,if_pos hrange,hold,reduceCtorEq,if_false]
      split <;> simp only [reduceCtorEq,if_true,if_false] <;> omega
    · simp only [judge,if_neg hrange]
      omega

/-- Deciding numbers leaves the others open. -/
theorem open_judge {first' n' : ℕ} (h : Open fate first' n')
    (hapart : first'+n' ≤ first ∨ first+n ≤ first') : Open (judge fate first n g) first' n' := by
  intro k hlow hhigh
  rw [judge,if_neg (by omega)]
  exact h k hlow hhigh

/-- A number granted now is one of those decided, within the granted ones. -/
theorem eq_granted_judge {k : ℕ} (h : judge fate first n g k=.granted) :
    fate k=.granted ∨ first ≤ k ∧ k < first+g := by
  unfold judge at h
  split_ifs at h with hrange hk
  · exact .inr ⟨hrange.1,hk⟩
  · exact .inl h

end Judging

end FastEventSystem.TicketFates
