import Mathlib.Data.List.Sort
import Mathlib.Data.List.Perm.Basic

/-!
# Sorted vectors taken from the back

A vector is kept back first: the head of the list is its last element. A
Boolean comparator orders the vector from its front, so an entry nearer to the
back never precedes a farther one. A sort function may return any permutation
which is sorted in this sense; in particular it need not be stable. The facts
below say what such a sort can leave at the back.
-/

namespace FastEventSystem.SortedVector

variable {α : Type*} {lt : α → α → Bool}

/-- No entry nearer to the back is ordered strictly before a farther one. -/
def Sorted (lt : α → α → Bool) (xs : List α) : Prop :=
  xs.Pairwise fun nearer farther => lt nearer farther=false

/-- Any sorting routine the comparator admits, stable or not. -/
structure SortFunction (lt : α → α → Bool) where
  /-- Contents of the vector after the call, back first. -/
  sort : List α → List α
  /-- Entries are rearranged, never lost or duplicated. -/
  perm : ∀ xs,(sort xs).Perm xs
  /-- The rearrangement is sorted by the comparator. -/
  sorted : ∀ xs,Sorted lt (sort xs)

/-- Straight insertion from the back, which keeps every tie as it stands. -/
def insertion (total : ∀ a b,lt a b=false ∨ lt b a=false)
    (trans : ∀ a b c,lt a b=false → lt b c=false → lt a c=false) : SortFunction lt where
  sort xs := xs.insertionSort fun nearer farther => lt nearer farther=false
  perm xs := List.perm_insertionSort _ xs
  sorted xs :=
    have : Std.Total fun nearer farther => lt nearer farther=false := ⟨total⟩
    have : IsTrans α fun nearer farther => lt nearer farther=false := ⟨trans⟩
    List.pairwise_insertionSort _ xs

/-- Replacing the back entry keeps the order when the comparator cannot tell
the two entries apart. -/
theorem Sorted.replace_back {a b : α} {xs : List α} (h : Sorted lt (a::xs))
    (he : ∀ x,lt b x=lt a x) : Sorted lt (b::xs) := by
  obtain ⟨hback,hrest⟩ := List.pairwise_cons.mp h
  refine List.pairwise_cons.mpr ⟨fun x hx => ?_,hrest⟩
  rw [he x]
  exact hback x hx

/-- An entry strictly after all others is at the back of every sorted
arrangement, whatever the sort does with ties. -/
theorem back_of_strict {m : α} {xs ys : List α} (hm : lt m m=false)
    (hlast : ∀ x∈xs,lt x m=true) (hperm : ys.Perm (m::xs)) (hs : Sorted lt ys) :
    ∃ rest,ys=m::rest ∧ rest.Perm xs := by
  cases ys with
  | nil => exact False.elim (List.not_mem_nil (hperm.symm.subset List.mem_cons_self))
  | cons b rest =>
    have hb : b=m := by
      rcases List.mem_cons.mp (hperm.subset List.mem_cons_self) with hb|hb
      · exact hb
      · rcases List.mem_cons.mp (hperm.symm.subset List.mem_cons_self) with hmb|hmr
        · exact hmb.symm
        · have hfalse := (List.pairwise_cons.mp hs).1 m hmr
          rw [hlast b hb] at hfalse
          contradiction
    subst hb
    exact ⟨rest,rfl,List.Perm.cons_inv hperm⟩

/-- Up to some occurrence of the entry, everything nearer to the back is
strictly after it. -/
def Leads (lt : α → α → Bool) (x : α) (xs : List α) : Prop :=
  ∃ nearer farther,xs=nearer++x::farther ∧ ∀ m∈nearer,lt x m=true

/-- The back entry leads. -/
theorem leads_back (x : α) (xs : List α) : Leads lt x (x::xs) :=
  ⟨[],xs,rfl,fun _ h => False.elim (List.not_mem_nil h)⟩

/-- An entry which ties with no other one leads every sorted vector it is in. -/
theorem Sorted.leads {x : α} {xs : List α} (h : Sorted lt xs) (hx : x∈xs)
    (htie : ∀ m∈xs,lt m x=false → lt x m=false → m=x) : Leads lt x xs := by
  obtain ⟨nearer,farther,rfl,hfirst⟩ := List.eq_append_cons_of_mem hx
  refine ⟨nearer,farther,rfl,fun m hm => ?_⟩
  have hle : lt m x=false :=
    (List.pairwise_append.mp h).2.2 m hm x List.mem_cons_self
  cases hlt : lt x m with
  | true => rfl
  | false =>
    have heq : m=x := htie m (List.mem_append_left _ hm) hle hlt
    exact False.elim (hfirst (heq ▸ hm))

/-- A back entry not strictly after a leading entry is that entry. -/
theorem Leads.back_eq {x b : α} {xs : List α} (h : Leads lt x (b::xs)) (hb : lt x b=false) :
    b=x := by
  obtain ⟨nearer,farther,heq,hnearer⟩ := h
  cases nearer with
  | nil => exact (List.cons.inj heq).1
  | cons c nearer =>
    have hc := hnearer c List.mem_cons_self
    rw [←(List.cons.inj heq).1,hb] at hc
    contradiction

/-- Popping another entry keeps an entry leading. -/
theorem Leads.tail {x b : α} {xs : List α} (h : Leads lt x (b::xs)) (hb : b≠x) :
    Leads lt x xs := by
  obtain ⟨nearer,farther,heq,hnearer⟩ := h
  cases nearer with
  | nil => exact False.elim (hb (List.cons.inj heq).1)
  | cons c nearer =>
    exact ⟨nearer,farther,(List.cons.inj heq).2,fun m hm => hnearer m (List.mem_cons_of_mem _ hm)⟩

/-- A strictly later entry at the back keeps an entry leading. -/
theorem Leads.push {x b : α} {xs : List α} (h : Leads lt x xs) (hb : lt x b=true) :
    Leads lt x (b::xs) := by
  obtain ⟨nearer,farther,rfl,hnearer⟩ := h
  refine ⟨b::nearer,farther,rfl,fun m hm => ?_⟩
  rcases List.mem_cons.mp hm with rfl|hm
  · exact hb
  · exact hnearer m hm

end FastEventSystem.SortedVector
