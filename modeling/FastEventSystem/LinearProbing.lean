import Mathlib.Data.Finset.Card
import Mathlib.Data.List.Basic

/-!
# Linear probing in tables which never fill up

A search goes from slot to slot until it meets a free one, and comes round at the
end of the table. It ends if there is one. Here a table admits a party by its rank
among all parties which were counted so far, so the number of keys in it stays
below its capacity, however late each of them comes. Nothing below mentions a
particular program.
-/

namespace FastEventSystem.LinearProbing

section Slots

variable {capacity start d : ℕ} {occupied : ℕ → Prop}

/-- All slots at smaller distances are occupied. -/
def Passed (occupied : ℕ → Prop) (capacity start d : ℕ) : Prop :=
  ∀ e < d,occupied ((start+e)%capacity)

/-- A search starts anywhere. -/
theorem passed_zero : Passed occupied capacity start 0 := fun e he => absurd he (Nat.not_lt_zero e)

/-- It passes one more slot. -/
theorem Passed.succ (h : Passed occupied capacity start d)
    (hd : occupied ((start+d)%capacity)) : Passed occupied capacity start (d+1) := by
  intro e he
  rcases Nat.lt_succ_iff_lt_or_eq.mp he with hlt|rfl
  · exact h e hlt
  · exact hd

/-- More slots may become occupied. -/
theorem Passed.mono {occupied' : ℕ → Prop} (h : Passed occupied capacity start d)
    (hle : ∀ k,occupied k → occupied' k) : Passed occupied' capacity start d :=
  fun e he => hle _ (h e he)

/-- The slot after the one at a distance. -/
theorem slot_succ : ((start+d)%capacity+1)%capacity=(start+(d+1))%capacity := by
  rw [Nat.mod_add_mod,Nat.add_assoc]

/-- How far a slot is from the start. -/
def distance (capacity start k : ℕ) : ℕ := (k+(capacity-start%capacity))%capacity

/-- Every slot is at its distance. -/
theorem slot_distance (start : ℕ) {k : ℕ} (hk : k < capacity) :
    (start+distance capacity start k)%capacity=k := by
  have hstart := Nat.mod_lt start (Nat.zero_lt_of_lt hk)
  rw [distance,Nat.add_mod_mod,←Nat.mod_add_mod,
    show start%capacity+(k+(capacity-start%capacity))=k+capacity by omega,Nat.add_mod_right,
    Nat.mod_eq_of_lt hk]

/-- In its first round a search is at that distance. -/
theorem distance_slot (hd : d < capacity) : distance capacity start ((start+d)%capacity)=d := by
  have hstart := Nat.mod_lt start (Nat.zero_lt_of_lt hd)
  rw [distance,Nat.mod_add_mod,←Nat.mod_add_div start capacity,Nat.add_mul_mod_self_left,
    Nat.mod_mod,
    show start%capacity+capacity*(start/capacity)+d+(capacity-start%capacity)=
      d+capacity+capacity*(start/capacity) by omega,Nat.add_mul_mod_self_left,Nat.add_mod_right,
    Nat.mod_eq_of_lt hd]

/-- A search has not passed a free slot, so it is still in its first round. -/
theorem Passed.lt_capacity (h : Passed occupied capacity start d) {k : ℕ} (hk : k < capacity)
    (hfree : ¬occupied k) : d < capacity := by
  have hdistance : distance capacity start k < capacity := Nat.mod_lt _ (Nat.zero_lt_of_lt hk)
  by_contra hd
  have hpassed := h (distance capacity start k) (by omega)
  rw [slot_distance start hk] at hpassed
  exact hfree hpassed

end Slots

section Ranks

variable {κ : Type*} [DecidableEq κ]

/-- The rank of a party in a list with the latest first: how many parties came
before it, with itself. -/
def rank : List κ → κ → ℕ
  | [],_ => 0
  | j::earlier,i => if j=i then earlier.length+1 else rank earlier i

variable {parties : List κ} {i j : κ}

/-- The latest one has the highest rank. -/
@[simp] theorem rank_cons_self : rank (i::parties) i=parties.length+1 := if_pos rfl

/-- The others keep theirs. -/
theorem rank_cons_of_ne (h : j≠i) : rank (j::parties) i=rank parties i := if_neg h

/-- There are no more ranks than parties. -/
theorem rank_le_length (parties : List κ) (i : κ) : rank parties i ≤ parties.length := by
  induction parties with
  | nil => exact le_rfl
  | cons j earlier ih =>
    rw [rank]
    split
    · exact le_rfl
    · exact ih.trans (Nat.le_succ _)

/-- Those in the list have one. -/
theorem rank_pos (h : i∈parties) : 0 < rank parties i := by
  induction parties with
  | nil => exact absurd h List.not_mem_nil
  | cons j earlier ih =>
    by_cases hj : j=i
    · rw [hj,rank_cons_self]
      exact Nat.succ_pos _
    · rw [rank_cons_of_ne hj]
      exact ih ((List.mem_cons.mp h).resolve_left (Ne.symm hj))

/-- No two of them have the same. -/
theorem eq_of_rank_eq (hi : i∈parties) (hj : j∈parties) (h : rank parties i=rank parties j) :
    i=j := by
  induction parties with
  | nil => exact absurd hi List.not_mem_nil
  | cons l earlier ih =>
    by_cases hli : l=i
    · by_cases hlj : l=j
      · exact hli.symm.trans hlj
      · rw [hli,rank_cons_self,←hli,rank_cons_of_ne hlj] at h
        have hle := rank_le_length earlier j
        omega
    · by_cases hlj : l=j
      · rw [hlj,rank_cons_self,←hlj,rank_cons_of_ne hli] at h
        have hle := rank_le_length earlier i
        omega
      · rw [rank_cons_of_ne hli,rank_cons_of_ne hlj] at h
        exact ih ((List.mem_cons.mp hi).resolve_left (Ne.symm hli))
          ((List.mem_cons.mp hj).resolve_left (Ne.symm hlj)) h

/-- When a party is taken out, no other one moves up. -/
theorem rank_erase_le (h : j≠i) : rank (parties.erase j) i ≤ rank parties i := by
  induction parties with
  | nil => exact le_rfl
  | cons l earlier ih =>
    rw [List.erase_cons]
    split
    · rename_i hl
      rw [rank_cons_of_ne (by rw [beq_iff_eq.mp hl]; exact h)]
    · by_cases hli : l=i
      · rw [hli,rank_cons_self,rank_cons_self]
        exact Nat.succ_le_succ List.length_erase_le
      · rw [rank_cons_of_ne hli,rank_cons_of_ne hli]
        exact ih

/-- A table which has every party at most once, and only parties of a rank below
a bound, has a free slot. -/
theorem exists_free {keys : ℕ → Option κ} {capacity bound : ℕ} (hpos : 0 < capacity)
    (hbound : bound ≤ capacity) (hunique : ∀ {k l i},keys k=some i → keys l=some i → k=l)
    (hrank : ∀ {k i},keys k=some i → i∈parties ∧ rank parties i < bound) :
    ∃ k < capacity,keys k=none := by
  by_contra hfull
  have hkey : ∀ k∈Finset.range capacity,∃ i,keys k=some i := by
    intro k hk
    rw [←Option.ne_none_iff_exists']
    exact fun hnone => hfull ⟨k,Finset.mem_range.mp hk,hnone⟩
  -- The ranks of the parties in all slots are different and positive.
  have hmaps : ∀ k∈Finset.range capacity,
      ((keys k).elim 0 (rank parties)-1)∈Finset.range (capacity-1) := by
    intro k hk
    obtain ⟨i,hi⟩ := hkey k hk
    obtain ⟨hmem,hlt⟩ := hrank hi
    have hone := rank_pos hmem
    rw [hi,Option.elim_some,Finset.mem_range]
    omega
  obtain ⟨k,hk,l,hl,hne,heq⟩ := Finset.exists_ne_map_eq_of_card_lt_of_maps_to
    (by rw [Finset.card_range,Finset.card_range]; omega) hmaps
  obtain ⟨i,hi⟩ := hkey k hk
  obtain ⟨j,hj⟩ := hkey l hl
  obtain ⟨hmemi,-⟩ := hrank hi
  obtain ⟨hmemj,-⟩ := hrank hj
  have hposi := rank_pos hmemi
  have hposj := rank_pos hmemj
  simp only [hi,hj,Option.elim_some] at heq
  have hij : i=j := eq_of_rank_eq hmemi hmemj (by omega)
  rw [hij] at hi
  exact hne (hunique hi hj)

end Ranks

end FastEventSystem.LinearProbing
