import Mathlib.Data.List.Basic

/-!
# Tables of slots which are filled and vacated

Objects with a lifetime are kept in a table: creating one appends a slot,
destroying it vacates the slot, and a slot is never reused for another object.
So the position of a slot is the identity of its object. Reading a slot after
an update is described by four equations, the search for a live object by one.
Nothing below mentions a particular program.
-/

namespace FastEventSystem.SlotTable

universe u

variable {α : Type u}

/-- The object in a slot, while it is alive. -/
def live (table : List (Option α)) (k : ℕ) : Option α := table[k]?.join

/-- A live object has a slot. -/
theorem lt_of_live {table : List (Option α)} {k : ℕ} {x : α} (h : live table k=some x) :
    k < table.length := by
  by_contra hk
  rw [live,List.getElem?_eq_none (by omega)] at h
  cases h

/-- An updated slot holds what was written. -/
theorem live_set_self {table : List (Option α)} {k : ℕ} (o : Option α) (h : k < table.length) :
    live (table.set k o) k=o := by
  rw [live,List.getElem?_set_self h]
  rfl

/-- The other slots keep their objects. -/
theorem live_set_of_ne (table : List (Option α)) {j k : ℕ} (o : Option α) (h : j≠k) :
    live (table.set k o) j=live table j := by
  rw [live,live,List.getElem?_set_ne (Ne.symm h)]

/-- The slot of a new object. -/
theorem live_append_self (table : List (Option α)) (o : Option α) :
    live (table++[o]) table.length=o := by
  rw [live,List.getElem?_concat_length]
  rfl

/-- A new object does not disturb the others. -/
theorem live_append_of_ne (table : List (Option α)) {k : ℕ} (o : Option α)
    (h : k≠table.length) : live (table++[o]) k=live table k := by
  rw [live,live]
  by_cases hk : k < table.length
  · rw [List.getElem?_append_left hk]
  · have hlen : (table++[o]).length=table.length+1 := List.length_append
    rw [List.getElem?_eq_none (by omega : (table++[o]).length ≤ k),
      List.getElem?_eq_none (by omega : table.length ≤ k)]

/-- Some live object passes a test. -/
def anyLive (p : α → Bool) (table : List (Option α)) : Bool := table.any (Option.any p)

/-- The search finds exactly the live objects. -/
theorem anyLive_iff (p : α → Bool) (table : List (Option α)) :
    anyLive p table=true ↔ ∃ k x,live table k=some x ∧ p x=true := by
  rw [anyLive,List.any_eq_true]
  constructor
  · rintro ⟨o,ho,hp⟩
    obtain ⟨k,hk,rfl⟩ := List.getElem_of_mem ho
    obtain ⟨x,hx,hpx⟩ := (Option.any_eq_true _ _).mp hp
    refine ⟨k,x,?_,hpx⟩
    rw [live,List.getElem?_eq_getElem hk,hx]
    rfl
  · rintro ⟨k,x,hx,hp⟩
    have hk := lt_of_live hx
    rw [live,List.getElem?_eq_getElem hk,Option.join_some] at hx
    refine ⟨table[k],List.getElem_mem hk,?_⟩
    rw [hx]
    exact hp

/-- An entry of a list with one more entry is an old one or the new one. -/
theorem getElem?_concat_cases {xs : List α} {x y : α} {c : ℕ} (h : (xs++[x])[c]?=some y) :
    xs[c]?=some y ∨ c=xs.length ∧ x=y := by
  by_cases hlt : c < xs.length
  · rw [List.getElem?_append_left hlt] at h
    exact .inl h
  · have hle : xs.length ≤ c := by omega
    rw [List.getElem?_append_right hle,List.getElem?_singleton] at h
    split at h
    · rename_i hc
      cases h
      exact .inr ⟨by omega,rfl⟩
    · cases h

/-- A live object is listed. -/
theorem mem_iff_live {table : List (Option α)} {x : α} :
    some x∈table ↔ ∃ k,live table k=some x := by
  rw [List.mem_iff_getElem?]
  refine exists_congr fun k => ?_
  rw [live,Option.join_eq_some_iff]

/-- An object occurs twice exactly when another slot has it too. -/
theorem two_le_count_iff [BEq α] [LawfulBEq α] {table : List (Option α)} {k : ℕ} {x : α}
    (h : live table k=some x) :
    2 ≤ table.count (some x) ↔ ∃ j,j≠k ∧ live table j=some x := by
  have hlt := lt_of_live h
  have hat : table[k]=some x := by
    rwa [live,List.getElem?_eq_getElem hlt,Option.join_some] at h
  have hset : (table.set k none).count (some x)=table.count (some x)-1 := by
    rw [List.count_set hlt,hat]
    simp only [beq_self_eq_true,if_true,reduceCtorEq,beq_iff_eq,if_false,Nat.add_zero]
  have hmem : some x∈table.set k none ↔ ∃ j,j≠k ∧ live table j=some x := by
    rw [mem_iff_live]
    refine exists_congr fun j => ?_
    by_cases hj : j=k
    · rw [hj,live_set_self none hlt]
      simp only [reduceCtorEq,ne_eq,not_true_eq_false,false_and]
    · rw [live_set_of_ne table none hj]
      simp only [ne_eq,hj,not_false_eq_true,true_and]
  rw [←hmem,←List.count_pos_iff,hset,Nat.sub_pos_iff_lt]
  exact Nat.succ_le_iff

end FastEventSystem.SlotTable
