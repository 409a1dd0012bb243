import Mathlib.Data.DFinsupp.WellFounded
import Mathlib.Order.Interval.Set.Defs
import Mathlib.Order.WellFounded
import Mathlib.Order.WithBot

/-!
# Runs which go on for ever

An endless run is a sequence of states with the action between any two of them. What
every step keeps holds along the run, and a measure which never rises falls only
finitely often. So a party which acts again and again, and lowers the measure unless
it has an excuse, has one again and again.

A stack of ranks, bottom first, descends when at some level the rank becomes
smaller, whatever is piled on top of that level afterwards, or when everything
from some level on goes. Stacks of bounded height cannot descend for ever: they are
compared level by level from the bottom, a missing level being smallest. Nothing
below mentions a particular program.
-/

namespace FastEventSystem.EndlessRuns

section Invariants

variable {σ ℓ : Type*} {next : σ → ℓ → Option σ} {run : ℕ → σ} {act : ℕ → ℓ} {I : σ → Prop}

/-- A predicate true at the start and kept by every step holds along the run. -/
theorem holds_along (h0 : I (run 0)) (hrun : ∀ n,next (run n) (act n)=some (run (n+1)))
    (hstep : ∀ {s a s'},I s → next s a=some s' → I s') (n : ℕ) : I (run n) := by
  induction n with
  | zero => exact h0
  | succ n ih => exact hstep ih (hrun n)

end Invariants

section Measures

variable {α : Type*} [LinearOrder α] [WellFoundedLT α] (f : ℕ → α) {first : ℕ}

/-- A measure which never rises falls only finitely often. -/
theorem falls_finitely_often (hle : ∀ n ≥ first,f (n+1) ≤ f n) :
    ∃ n ≥ first,∀ m ≥ n,¬f (m+1) < f m := by
  -- It does not fall after it has reached its minimum.
  obtain ⟨_,⟨n,hn,rfl⟩,hmin⟩ := wellFounded_lt.has_min (f '' Set.Ici first)
    ⟨f first,first,Set.mem_Ici.mpr le_rfl,rfl⟩
  have hfirst : first ≤ n := hn
  have hbelow : ∀ m ≥ n,f m ≤ f n := by
    intro m hm
    induction m,hm using Nat.le_induction with
    | base => exact le_rfl
    | succ m hm ih => exact (hle m (hfirst.trans hm)).trans ih
  refine ⟨n,hfirst,fun m hm hlt => ?_⟩
  exact hmin (f (m+1)) ⟨m+1,hfirst.trans (hm.trans (Nat.le_succ m)),rfl⟩
    (hlt.trans_le (hbelow m hm))

/-- Who acts again and again, and lowers the measure with every act that is not
excused, is excused again and again, if nobody else raises the measure. -/
theorem excused_again_and_again {acts excused : ℕ → Prop} (hoften : ∀ n,∃ m ≥ n,acts m)
    (hfalls : ∀ n ≥ first,acts n → ¬excused n → f (n+1) < f n)
    (hothers : ∀ n ≥ first,¬acts n → f (n+1) ≤ f n) (last : ℕ) :
    ∃ m ≥ last,acts m ∧ excused m := by
  by_contra hnever
  push Not at hnever
  have hlower : ∀ n ≥ max first last,acts n → f (n+1) < f n := fun n hn ha =>
    hfalls n ((le_max_left _ _).trans hn) ha (hnever n ((le_max_right _ _).trans hn) ha)
  have hle : ∀ n ≥ max first last,f (n+1) ≤ f n := by
    intro n hn
    by_cases ha : acts n
    · exact (hlower n hn ha).le
    · exact hothers n ((le_max_left _ _).trans hn) ha
  obtain ⟨n,hn,hstill⟩ := falls_finitely_often f hle
  obtain ⟨m,hm,ha⟩ := hoften n
  exact hstill m hm (hlower m (hn.trans hm) ha)

end Measures

section Stacks

variable {α : Type*}

/-- The first stack is below the second one. -/
def Descends [LT α] (lower upper : List α) : Prop :=
  ∃ (common : List α) (x : α) (above : List α),upper=common++x::above ∧
    (lower=common ∨ ∃ y above',y < x ∧ lower=common++y::above')

/-- The levels of a stack up to a height. -/
def levels (height : ℕ) (stack : List α) (i : Fin height) : WithBot α := stack[i.val]?

/-- A descent within a height is a descent of the levels, from the bottom. -/
theorem levels_lt [LT α] {height : ℕ} {lower upper : List α} (h : Descends lower upper)
    (hupper : upper.length ≤ height) :
    Pi.Lex (· < ·) (· < ·) (levels height lower) (levels height upper) := by
  obtain ⟨common,x,above,rfl,hlower⟩ := h
  rw [List.length_append,List.length_cons] at hupper
  have hx : (common++x::above)[common.length]?=some x := by
    rw [List.getElem?_append_right (Nat.le_refl _),Nat.sub_self,List.getElem?_cons_zero]
  refine ⟨⟨common.length,by omega⟩,fun j hj => ?_,?_⟩
  · have hlt : j.val < common.length := hj
    have hold : (common++x::above)[j.val]?=common[j.val]? := List.getElem?_append_left hlt
    rcases hlower with rfl|⟨y,above',-,rfl⟩
    · exact hold.symm
    · exact (List.getElem?_append_left hlt).trans hold.symm
  · have hupperLevel : levels height (common++x::above) ⟨common.length,by omega⟩=
        (x : WithBot α) := hx
    rw [hupperLevel]
    rcases hlower with rfl|⟨y,above',hy,rfl⟩
    · have hnone : levels height lower ⟨lower.length,by omega⟩=(⊥ : WithBot α) :=
        List.getElem?_eq_none (Nat.le_refl _)
      rw [hnone]
      exact WithBot.bot_lt_coe x
    · have hlowerLevel : levels height (common++y::above') ⟨common.length,by omega⟩=
          (y : WithBot α) := by
        rw [levels,List.getElem?_append_right (Nat.le_refl _),Nat.sub_self,
          List.getElem?_cons_zero]
        rfl
      rw [hlowerLevel]
      exact WithBot.coe_lt_coe.mpr hy

/-- Stacks of bounded height do not descend for ever. -/
theorem no_infinite_descent [LinearOrder α] [WellFoundedLT α] (height : ℕ) (stack : ℕ → List α)
    (hheight : ∀ n,(stack n).length ≤ height) : ∃ n,¬Descends (stack (n+1)) (stack n) := by
  by_contra hall
  push Not at hall
  have hwf : IsWellFounded (Fin height → WithBot α) (Pi.Lex (· < ·) (· < ·)) :=
    ⟨Pi.Lex.wellFounded (· < ·) fun _ => wellFounded_lt⟩
  obtain ⟨n,hn⟩ := (WellFounded.not_rel_apply_succ (h := hwf)) fun n => levels height (stack n)
  exact hn (levels_lt (hall n) (hheight n))

end Stacks

end FastEventSystem.EndlessRuns
