import Mathlib.Data.List.Basic
import Mathlib.Logic.Function.Basic

/-!
# Lists of nodes linked by a field

A list of nodes is reached from a first node through the field which links each to
the next one. A node off the list may be linked anywhere, and a node put before the
list makes a longer one. Nothing below mentions a particular program.
-/

namespace FastEventSystem.LinkedNodes

variable {α : Type*} {next : α → Option α} {head : Option α} {n : α} {list : List α}

/-- The nodes behind a head, which end with null. -/
def Chain (next : α → Option α) : Option α → List α → Prop
  | head,[] => head=none
  | head,n::rest => head=some n ∧ Chain next (next n) rest

/-- A node which is not among them may be linked elsewhere. -/
theorem Chain.update [DecidableEq α] (h : Chain next head list) (hn : n∉list) (v : Option α) :
    Chain (Function.update next n v) head list := by
  induction list generalizing head with
  | nil => exact h
  | cons m rest ih =>
    rw [List.mem_cons,not_or] at hn
    refine ⟨h.1,?_⟩
    rw [Function.update_of_ne (Ne.symm hn.1)]
    exact ih h.2 hn.2

/-- With a first node there are others behind it. -/
theorem Chain.first (h : Chain next (some n) list) :
    ∃ rest,list=n::rest ∧ Chain next (next n) rest := by
  cases list with
  | nil => cases h
  | cons m rest =>
    obtain ⟨hm,hrest⟩ := h
    cases hm
    exact ⟨rest,rfl,hrest⟩

/-- The next node of a node on the list is on the list. -/
theorem Chain.next_mem {m : α} (h : Chain next head list) (hn : n∈list) (hm : next n=some m) :
    m∈list := by
  induction list generalizing head with
  | nil => exact absurd hn List.not_mem_nil
  | cons l rest ih =>
    rcases List.mem_cons.mp hn with rfl|hn
    · have hrest := h.2
      rw [hm] at hrest
      obtain ⟨rest',hrest',-⟩ := hrest.first
      rw [hrest']
      exact List.mem_cons_of_mem _ List.mem_cons_self
    · exact List.mem_cons_of_mem _ (ih h.2 hn)

/-- Counted from the end, the next node comes before the node. -/
theorem Chain.idxOf_lt [DecidableEq α] {m : α} (h : Chain next head list) (hnodup : list.Nodup)
    (hn : n∈list) (hm : next n=some m) : list.reverse.idxOf m < list.reverse.idxOf n := by
  induction list generalizing head with
  | nil => exact absurd hn List.not_mem_nil
  | cons l rest ih =>
    obtain ⟨hl,hrest⟩ := List.nodup_cons.mp hnodup
    rw [List.reverse_cons]
    rcases List.mem_cons.mp hn with rfl|hn
    · have hnext := h.2
      rw [hm] at hnext
      obtain ⟨rest',rfl,-⟩ := hnext.first
      have hmem : m∈(m::rest').reverse := List.mem_reverse.mpr List.mem_cons_self
      rw [List.idxOf_append_of_mem hmem,List.idxOf_append_of_notMem (by rwa [List.mem_reverse])]
      exact Nat.lt_of_lt_of_le (List.idxOf_lt_length_of_mem hmem) (Nat.le_add_right _ _)
    · have hmem := h.2.next_mem hn hm
      rw [List.idxOf_append_of_mem (List.mem_reverse.mpr hmem),
        List.idxOf_append_of_mem (List.mem_reverse.mpr hn)]
      exact ih h.2 hrest hn

/-- A new node is put before the list. -/
theorem Chain.push [DecidableEq α] (h : Chain next head list) (hn : n∉list) :
    Chain (Function.update next n head) (some n) (n::list) := by
  refine ⟨rfl,?_⟩
  rw [Function.update_self]
  exact h.update hn head

end FastEventSystem.LinkedNodes
