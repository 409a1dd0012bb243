import FastEventSystem.SortedVector
import Mathlib.Order.Defs.Unbundled

/-!
# Delayed messages and their urgency order

A message of an `async_delay` carries a priority, a timestamp and its tuple of
arguments. The tuple is a cell which is emptied when the message is
move-constructed from. `messageComp` is the comparator handed to `std::sort`:
latest timestamp first, then lowest priority first, so the back of the vector
is the most urgent message. The source's `marktime` and `deltatime` are exact
integers of one unit: they neither overflow nor round, and none is NaN as a
`double` of the MSVC build may be.
-/

namespace FastEventSystem.MessageOrder

open SortedVector

/-- One entry of the vector of an `async_delay`. -/
structure Message (α : Type*) where
  /-- More high is more urgent. -/
  priority : ℤ
  /-- First clock reading at which the message may be dispatched. -/
  timestamp : ℤ
  /-- The arguments; empty once some message was move-constructed from here. -/
  data : Option α
  deriving DecidableEq,Repr

variable {α : Type*}

/-- What is left of a message after `std::move`: the numbers stay, the
arguments are gone. -/
def Message.movedFrom (m : Message α) : Message α := {m with data := none}

/-- The arguments are still there. -/
def Message.Intact (m : Message α) : Prop := m.data.isSome=true

instance (m : Message α) : Decidable m.Intact := inferInstanceAs (Decidable (_=_))

/-- The comparator of the source, first by timestamp, after by priority. -/
def messageComp (one other : Message α) : Bool :=
  if one.timestamp < other.timestamp then false
  else if one.timestamp > other.timestamp then true
  else if one.priority < other.priority then true
  else if one.priority > other.priority then false
  else false

/-- The comparator orders by later timestamp and, at equal timestamps, by
lower priority. -/
theorem messageComp_iff (one other : Message α) :
    messageComp one other=true ↔ other.timestamp < one.timestamp ∨
      one.timestamp=other.timestamp ∧ one.priority < other.priority := by
  unfold messageComp
  split_ifs <;> simp only [false_iff,true_iff] <;> omega

/-- The negated comparator, in the form read off a sorted vector. -/
theorem messageComp_false_iff (one other : Message α) :
    messageComp one other=false ↔ one.timestamp ≤ other.timestamp ∧
      (one.timestamp=other.timestamp → other.priority ≤ one.priority) := by
  rw [←Bool.not_eq_true,messageComp_iff]
  omega

/-- The comparator never looks at the arguments. -/
theorem messageComp_movedFrom (one other : Message α) :
    messageComp one.movedFrom other=messageComp one other := rfl

/-- The requirement the source states for its comparator. -/
theorem messageComp_strictWeak :
    IsStrictWeakOrder (Message α) fun one other => messageComp one other=true where
  irrefl a h := by
    rw [messageComp_iff] at h
    omega
  trans a b c hab hbc := by
    rw [messageComp_iff] at hab hbc ⊢
    omega
  incomp_trans a b c hab hbc := by
    simp only [messageComp_iff] at hab hbc ⊢
    omega

/-- Two messages are equivalent for the sort exactly when timestamp and
priority agree. -/
theorem messageComp_equivalence (one other : Message α) :
    ¬messageComp one other=true ∧ ¬messageComp other one=true ↔
      one.timestamp=other.timestamp ∧ one.priority=other.priority := by
  simp only [messageComp_iff]
  omega

/-- Equal timestamp and priority: `std::sort` may leave the two in any order. -/
def Message.Tied (one other : Message α) : Prop :=
  one.timestamp=other.timestamp ∧ one.priority=other.priority

instance (one other : Message α) : Decidable (one.Tied other) :=
  inferInstanceAs (Decidable (_ ∧ _))

/-- Two messages of which neither is more urgent are tied. -/
theorem tied_of_messageComp {one other : Message α} (h : messageComp one other=false)
    (h' : messageComp other one=false) : one.Tied other :=
  (messageComp_equivalence one other).mp
    ⟨Bool.eq_false_iff.mp h,Bool.eq_false_iff.mp h'⟩

/-- A message is not more urgent than itself. -/
theorem messageComp_self (m : Message α) : messageComp m m=false :=
  Bool.eq_false_iff.mpr (messageComp_strictWeak.irrefl m)

/-- Any `std::sort` of message vectors the standard allows. -/
abbrev StdSort (α : Type*) := SortFunction (messageComp (α := α))

/-- Insertion from the back, one of the allowed sorts. -/
def insertionSort (α : Type*) : StdSort α :=
  insertion
    (fun a b => by simp only [messageComp_false_iff]; omega)
    (fun a b c hab hbc => by simp only [messageComp_false_iff] at hab hbc ⊢; omega)

end FastEventSystem.MessageOrder
