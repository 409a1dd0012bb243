import Mathlib.Algebra.BigOperators.Group.Finset.Basic
import Mathlib.Algebra.BigOperators.Group.Finset.Piecewise
import Mathlib.Algebra.Order.BigOperators.Group.Finset
import Mathlib.Data.Fintype.Basic

/-!
# Totals over finitely many parties

Each of finitely many parties has its own local state. A weight assigns every
party and local state a value in a commutative monoid, and the total is their
sum. One party moving changes the total by exactly its own difference. The
counts and the multisets of in-flight items of an interleaving are both totals.
-/

namespace FastEventSystem.PartyTotals

open Finset

section Monoid

variable {ι L F M : Type*} [Fintype ι] [AddCommMonoid M]

/-- Sum of every party's own weight. -/
def total (weight : ι → L → M) (loc : ι → L) : M := ∑ i,weight i (loc i)

/-- One party's move exchanges its old weight for its new weight. -/
theorem total_update [DecidableEq ι] (weight : ι → L → M) (loc : ι → L) (i : ι) (x : L) :
    total weight (Function.update loc i x)+weight i (loc i)=total weight loc+weight i x := by
  have hrest : ∑ j∈univ.erase i,weight j (Function.update loc i x j)=
      ∑ j∈univ.erase i,weight j (loc j) := by
    refine Finset.sum_congr rfl fun j hj => ?_
    rw [Function.update_of_ne (Finset.ne_of_mem_erase hj)]
  have hnew := Finset.add_sum_erase univ (fun j => weight j (Function.update loc i x j))
    (mem_univ i)
  have hold := Finset.add_sum_erase univ (fun j => weight j (loc j)) (mem_univ i)
  simp only [Function.update_self,hrest] at hnew
  rw [total,total,←hnew,←hold]
  ac_rfl

/-- Parties in weightless local states contribute nothing. -/
theorem total_eq_zero (weight : ι → L → M) (loc : ι → L) (h : ∀ i,weight i (loc i)=0) :
    total weight loc=0 := by
  rw [total]
  exact Finset.sum_eq_zero fun i _ => h i

/-- Weight of a call stack, top first; a frame's depth is the number of frames
below it. -/
def stackWeight (weight : ℕ → F → M) : List F → M
  | [] => 0
  | f::rest => weight rest.length f+stackWeight weight rest

/-- Sum of the stack weights of all parties. -/
def stackTotal (weight : ι → ℕ → F → M) (stack : ι → List F) : M :=
  total (fun i st => stackWeight (weight i) st) stack

/-- A frame on some stack is counted in the total. -/
theorem le_stackTotal (count : F → ℕ) {stack : ι → List F} {i : ι} {f : F}
    (hf : f∈stack i) : count f ≤ stackTotal (fun _ _ f => count f) stack := by
  have hstack : ∀ st : List F,f∈st → count f ≤ stackWeight (fun _ f => count f) st := by
    intro st
    induction st with
    | nil => exact fun h => False.elim (List.not_mem_nil h)
    | cons g rest ih =>
      intro hmem
      rw [stackWeight]
      rcases List.mem_cons.mp hmem with rfl|hmem
      · exact Nat.le_add_right _ _
      · exact (ih hmem).trans (Nat.le_add_left _ _)
  have hone := Finset.single_le_sum
    (f := fun j => stackWeight (fun _ f => count f) (stack j))
    (fun _ _ => Nat.zero_le _) (Finset.mem_univ i)
  exact (hstack _ hf).trans hone

end Monoid

section Cancellation

variable {ι L F M : Type*} [Fintype ι] [DecidableEq ι] [AddCancelCommMonoid M]

/-- A party which gains raises the total by its gain. -/
theorem total_gain (weight : ι → L → M) (loc : ι → L) (i : ι) {x : L} {gain : M}
    (h : weight i x=weight i (loc i)+gain) :
    total weight (Function.update loc i x)=total weight loc+gain := by
  have hupdate := total_update weight loc i x
  rw [h,←add_assoc,add_right_comm] at hupdate
  exact add_right_cancel hupdate

/-- A party which loses lowers the total by its loss. -/
theorem total_loss (weight : ι → L → M) (loc : ι → L) (i : ι) {x : L} {loss : M}
    (h : weight i (loc i)=weight i x+loss) :
    total weight (Function.update loc i x)+loss=total weight loc := by
  have hupdate := total_update weight loc i x
  rw [h,←add_assoc,add_right_comm] at hupdate
  exact add_right_cancel hupdate

variable (weight : ι → ℕ → F → M) (stack : ι → List F) (i : ι)

/-- A call adds the weight of its frame. -/
theorem stackTotal_push (f : F) :
    stackTotal weight (Function.update stack i (f::stack i))=
      stackTotal weight stack+weight i (stack i).length f :=
  total_gain _ stack i (add_comm _ _)

/-- A return takes the weight of its frame. -/
theorem stackTotal_pop {f : F} {rest : List F} (hs : stack i=f::rest) :
    stackTotal weight (Function.update stack i rest)+weight i rest.length f=
      stackTotal weight stack := by
  refine total_loss _ stack i ?_
  rw [hs]
  exact add_comm _ _

/-- A step inside the top call exchanges the weights of its frames. -/
theorem stackTotal_turn {f : F} {rest : List F} (hs : stack i=f::rest) (g : F) :
    stackTotal weight (Function.update stack i (g::rest))+weight i rest.length f=
      stackTotal weight stack+weight i rest.length g := by
  have h := total_update (fun i st => stackWeight (weight i) st) stack i (g::rest)
  rw [hs,stackWeight,stackWeight,←add_assoc,←add_assoc] at h
  exact add_right_cancel h

end Cancellation

end FastEventSystem.PartyTotals
