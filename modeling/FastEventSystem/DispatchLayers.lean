import FastEventSystem.DelayChannel
import Mathlib.Data.List.Pairwise

/-!
# Emptied entries under nested dispatches

While its subscribers run, a dispatched message is still in the vector as an
emptied entry. A handler may send and may receive in turn, so several such
entries can be in the vector at once, one for every call on the stack. This
module says when the stack and the vector fit together: the emptied entries
are those of the dispatched messages, inner dispatches are of strictly more
urgent messages, and what stands nearer to the back than an emptied entry is
strictly more urgent. Then a pop can only remove the right entry.
-/

namespace FastEventSystem.DispatchLayers

open SortedVector MessageOrder DelayChannel

variable {α : Type*}

/-- The dispatched messages, innermost first, fit the vector. -/
structure Layered (stack queue : List (Message α)) : Prop where
  /-- The vector is sorted. -/
  sorted : Sorted messageComp queue
  /-- The emptied entries are exactly those of the dispatched messages. -/
  emptied : (queue.filter fun m => ¬m.Intact).Perm (stack.map Message.movedFrom)
  /-- Inner dispatches are of strictly more urgent messages. -/
  nested : stack.Pairwise fun inner outer => messageComp outer inner=true
  /-- Nearer to the back than an emptied entry all is strictly more urgent. -/
  leads : ∀ t∈stack,Leads messageComp t.movedFrom queue

/-- An emptied entry has no arguments. -/
theorem movedFrom_not_intact (t : Message α) : ¬t.movedFrom.Intact := Bool.false_ne_true

/-- Without a dispatch every entry of a fitting vector is intact. -/
theorem Layered.intact {queue : List (Message α)} (h : Layered [] queue) :
    ∀ m∈queue,m.Intact := by
  have hnil := List.perm_nil.mp h.emptied
  intro m hm
  simpa using List.filter_eq_nil_iff.mp hnil m hm

/-- An entry without arguments belongs to a dispatched message. -/
theorem Layered.source {stack queue : List (Message α)} {m : Message α}
    (h : Layered stack queue) (hm : m∈queue) (he : ¬m.Intact) : ∃ t∈stack,t.movedFrom=m := by
  have hmem : m∈queue.filter fun m => ¬m.Intact :=
    List.mem_filter.mpr ⟨hm,decide_eq_true he⟩
  exact List.mem_map.mp (h.emptied.subset hmem)

/-- A dispatched message still has its emptied entry in the vector. -/
theorem Layered.entry {stack queue : List (Message α)} {t : Message α}
    (h : Layered stack queue) (ht : t∈stack) : t.movedFrom∈queue :=
  (List.mem_filter.mp (h.emptied.symm.subset (List.mem_map_of_mem ht))).1

/-- Nested dispatches never tie. -/
theorem Layered.untied {stack queue : List (Message α)} {t u : Message α}
    (h : Layered stack queue) (ht : t∈stack) (hu : u∈stack) (htie : t.Tied u) : t=u := by
  by_contra hne
  have hdistinct : stack.Pairwise fun a b => ¬a.Tied b ∧ ¬b.Tied a := by
    refine h.nested.imp fun {a b} hab => ?_
    rw [messageComp_iff] at hab
    unfold Message.Tied
    omega
  have : Std.Symm fun a b : Message α => ¬a.Tied b ∧ ¬b.Tied a := ⟨fun _ _ hab => ⟨hab.2,hab.1⟩⟩
  exact (hdistinct.forall ht hu hne).1 htie

/-- A send which brings no tie with a dispatched message keeps the fit,
whatever the sort does. -/
theorem layered_operatorCall {stack : List (Message α)} {c : AsyncDelay α}
    {priority delayPoint : ℤ} {data : α} (std : StdSort α) (h : Layered stack c.queue)
    (huntied : ∀ t∈stack,∀ m∈⟨priority,delayPoint,some data⟩::c.queue,m.Intact → ¬m.Tied t) :
    Layered stack (c.operatorCall priority delayPoint data std).queue := by
  have hperm := operatorCall_perm c priority delayPoint data std
  have hsorted := operatorCall_sorted c priority delayPoint data std
  refine ⟨hsorted,?_,h.nested,fun t ht => ?_⟩
  · refine (hperm.filter _).trans ?_
    rw [List.filter_cons_of_neg (by simp [Message.Intact])]
    exact h.emptied
  · refine hsorted.leads (hperm.symm.subset (List.mem_cons_of_mem _ (h.entry ht))) ?_
    intro m hm hle hge
    have htie : m.Tied t := tied_of_messageComp hle hge
    by_cases hm' : m.Intact
    · exact False.elim (huntied t ht m (hperm.subset hm) hm' htie)
    · -- an emptied entry tied with this one is this one
      have hold : m∈c.queue := by
        rcases List.mem_cons.mp (hperm.subset hm) with rfl|hold
        · exact False.elim (hm' rfl)
        · exact hold
      obtain ⟨u,hu,rfl⟩ := h.source hold hm'
      rw [h.untied hu ht htie]

/-- A back entry strictly more urgent than all dispatched messages is intact,
and dispatching it keeps the fit. -/
theorem layered_moveBack {stack rest : List (Message α)} {b : Message α}
    (h : Layered stack (b::rest)) (hb : ∀ t∈stack,messageComp t b=true) :
    b.Intact ∧ Layered (b::stack) (b.movedFrom::rest) := by
  have hne : ∀ t∈stack,b≠t.movedFrom := by
    intro t ht heq
    have hlt := hb t ht
    rw [heq,←messageComp_movedFrom,messageComp_self] at hlt
    contradiction
  have hintact : b.Intact := by
    by_contra he
    obtain ⟨t,ht,heq⟩ := h.source List.mem_cons_self he
    exact hne t ht heq.symm
  refine ⟨hintact,h.sorted.replace_back (messageComp_movedFrom b),?_,
    List.pairwise_cons.mpr ⟨hb,h.nested⟩,fun t ht => ?_⟩
  · have hemptied := h.emptied
    rw [List.filter_cons_of_neg (by simpa using hintact)] at hemptied
    rw [List.filter_cons_of_pos (by simpa using movedFrom_not_intact b)]
    exact hemptied.cons _
  · rcases List.mem_cons.mp ht with rfl|ht
    · exact leads_back _ _
    · exact ((h.leads t ht).tail (hne t ht)).push (hb t ht)

/-- When the back entry is not more urgent than the innermost dispatched
message it is that message's, and popping it keeps the fit. -/
theorem layered_popBack {stack rest : List (Message α)} {t b : Message α}
    (h : Layered (t::stack) (b::rest)) (hb : messageComp t b=false) :
    b=t.movedFrom ∧ Layered stack rest := by
  have heq : b=t.movedFrom := (h.leads t List.mem_cons_self).back_eq hb
  obtain ⟨houter,hnested⟩ := List.pairwise_cons.mp h.nested
  refine ⟨heq,(List.pairwise_cons.mp h.sorted).2,?_,hnested,fun u hu => ?_⟩
  · have hemptied := h.emptied
    rw [heq,List.filter_cons_of_pos (by simpa using movedFrom_not_intact t)] at hemptied
    exact hemptied.cons_inv
  · refine (h.leads u (List.mem_cons_of_mem _ hu)).tail fun hbu => ?_
    -- inner and outer entries differ, for the inner one is strictly more urgent
    have hlt := houter u hu
    rw [←messageComp_movedFrom,←hbu,heq] at hlt
    exact Bool.false_ne_true ((messageComp_self t).symm.trans hlt)

end FastEventSystem.DispatchLayers
