import FastEventSystem.BlockingQueue
import Mathlib.Algebra.BigOperators.Ring.Finset

/-!
# A search in the blocking queue is never in vain

Units stand for elements. A consumer which has units and holds no number of any
sub-queue can therefore count on an element which no other consumer holds a
number for, wherever the other threads have stopped. If they stay where they are,
it finds one, by itself.
-/

namespace FastEventSystem.BlockingQueue

open CircularWords GuardedRuns PartyTotals

variable {ι α : Type*} [DecidableEq ι] [Fintype ι]

section Supply

/-- Elements a consumer keeps from others: those it holds a number or an index
for. -/
def burden (z : SubqueueClaims.Phase) : ℕ :=
  z.claims+z.surplus+z.unsettled+Multiset.card z.held

/-- It is no more than the consumer may take. -/
theorem burden_le_reach (z : SubqueueClaims.Phase) : burden z ≤ z.reach := by
  cases z with
  | taking index left =>
    simp only [burden,SubqueueClaims.Phase.claims,SubqueueClaims.Phase.surplus,
      SubqueueClaims.Phase.unsettled,SubqueueClaims.Phase.held,SubqueueClaims.Phase.reach,
      Multiset.coe_card,List.length_range']
    omega
  | _ =>
    simp only [burden,SubqueueClaims.Phase.claims,SubqueueClaims.Phase.surplus,
      SubqueueClaims.Phase.unsettled,SubqueueClaims.Phase.held,SubqueueClaims.Phase.reach,
      Multiset.card_zero]
    omega

/-- Published elements of a sub-queue which nobody holds a number for. -/
def available (u : SubqueueClaims.State ι α) : ℤ := u.tail+u.overcommit-u.optimistic

omit [DecidableEq ι] in
/-- They are what is neither moved out nor kept by a consumer. -/
theorem available_eq {u : SubqueueClaims.State ι α} {fate : ℕ → TicketFates.Fate}
    (h : SubqueueClaims.Booked fate u) :
    available u=u.tail-u.delivered.length-∑ j,(burden (u.phase j) : ℤ) := by
  have hheld : Multiset.card (SubqueueClaims.held u)=∑ j,Multiset.card (u.phase j).held :=
    map_sum Multiset.cardHom _ _
  have hshared := congrArg Multiset.card h.shared
  rw [Multiset.card_add,Multiset.coe_card,List.length_map,Multiset.card_range,hheld] at hshared
  have hspent := h.spent
  have hsum : ∑ j,burden (u.phase j)=SubqueueClaims.claims u+SubqueueClaims.surplus u+
      SubqueueClaims.unsettled u+∑ j,Multiset.card (u.phase j).held := by
    simp only [burden,Finset.sum_add_distrib]
    rfl
  rw [available,←Nat.cast_sum,hsum]
  generalize ∑ j,Multiset.card (u.phase j).held=n at hshared
  omega

omit [DecidableEq ι] in
/-- Nothing is available in a sub-queue which never had anything. -/
theorem available_nonpos {u : SubqueueClaims.State ι α} {fate : ℕ → TicketFates.Fate}
    (h : SubqueueClaims.Booked fate u) (htail : u.tail=0) : available u ≤ 0 := by
  have hspent := h.spent
  rw [available]
  omega

variable {s : State ι α}

omit [DecidableEq ι] in
/-- A thread keeps no more elements from others than it has units for, and none
if it is in no sub-queue. -/
theorem sum_burden_le (h : Matched s) (j : ι) :
    ∑ p,burden ((s.inner p).phase j) ≤ (s.control j).need ∧
      ((s.control j).place=none → ∑ p,burden ((s.inner p).phase j)=0) := by
  have hidle : ∀ p,(s.control j).place≠some p → burden ((s.inner p).phase j)=0 := by
    intro p hp
    rw [h.away j p hp]
    rfl
  cases hplace : (s.control j).place with
  | none =>
    have hzero : ∑ p,burden ((s.inner p).phase j)=0 := by
      refine Finset.sum_eq_zero fun p _ => hidle p ?_
      rw [hplace]
      nofun
    exact ⟨by omega,fun _ => hzero⟩
  | some p₀ =>
    refine ⟨?_,nofun⟩
    have hsingle : ∑ p,burden ((s.inner p).phase j)=burden ((s.inner p₀).phase j) := by
      refine Finset.sum_eq_single p₀ (fun p _ hp => hidle p ?_) fun hnot => ?_
      · rw [hplace]
        exact fun heq => hp (Option.some.inj heq).symm
      · exact False.elim (hnot (Finset.mem_univ p₀))
    rw [hsingle]
    exact (burden_le_reach _).trans (h.there j p₀ hplace).2

omit [DecidableEq ι] in
/-- Units gained inside calls are no fewer than none. -/
theorem gained_nonneg {v : LightweightSemaphore.State ι} (h : LightweightSemaphore.Sound 0 v) :
    0 ≤ LightweightSemaphore.gained v := by
  refine Finset.sum_nonneg fun i _ => ?_
  have hi := h.phases i
  cases hp : v.phase i with
  | trying c got limit =>
    rw [hp] at hi
    simp only [LightweightSemaphore.Phase.gained]
    have hgot := hi.2
    omega
  | tried c got limit old =>
    rw [hp] at hi
    simp only [LightweightSemaphore.Phase.gained]
    have hgot := hi.2
    omega
  | _ => exact le_rfl

omit [DecidableEq ι] in
/-- Published elements which are not signalled yet are no fewer than none. -/
theorem unsaid_nonneg (h : LightweightSemaphore.Sound 0 s.sema) : 0 ≤ unsaid s := by
  refine add_nonneg (Finset.sum_nonneg fun i _ => Int.natCast_nonneg _)
    (Finset.sum_nonneg fun i _ => ?_)
  have hi := h.phases i
  cases hp : s.sema.phase i with
  | signalling n =>
    rw [hp] at hi
    exact hi
  | _ => exact le_rfl

omit [DecidableEq ι] in
/-- What all threads but one keep from others is within their units. -/
theorem sum_burden_le_needs (h : Matched s) {i : ι} (hplace : (s.control i).place=none) :
    ∑ j,∑ p,(burden ((s.inner p).phase j) : ℤ) ≤ needs s-(s.control i).need := by
  classical
  have hcast : ∀ j,∑ p,(burden ((s.inner p).phase j) : ℤ)=
      (∑ p,burden ((s.inner p).phase j) : ℕ) := fun j => (Nat.cast_sum _ _).symm
  have hothers : ∑ j∈Finset.univ.erase i,∑ p,(burden ((s.inner p).phase j) : ℤ) ≤
      ∑ j∈Finset.univ.erase i,((s.control j).need : ℤ) := by
    refine Finset.sum_le_sum fun j _ => ?_
    rw [hcast]
    exact Int.ofNat_le.mpr (sum_burden_le h j).1
  have hself : ∑ p,(burden ((s.inner p).phase i) : ℤ)=0 := by
    rw [hcast,(sum_burden_le h i).2 hplace]
    rfl
  have hleft := Finset.add_sum_erase Finset.univ
    (fun j => ∑ p,(burden ((s.inner p).phase j) : ℤ)) (Finset.mem_univ i)
  have hright := Finset.add_sum_erase Finset.univ
    (fun j => ((s.control j).need : ℤ)) (Finset.mem_univ i)
  simp only [hself] at hleft
  rw [←hleft,needs,total,←hright]
  omega

/-- The sum of what is available is at least what a searching thread needs. -/
theorem need_le_sum_available {spins w block : ℕ} (hcard : Fintype.card ι < 2147483648) (hw : 0 < w)
    (hblock : 0 < block) (hfits : block ≤ half w) (h : Whole spins w block s) {i : ι}
    (hplace : (s.control i).place=none) :
    ((s.control i).need : ℤ) ≤ ∑ p,available (s.inner p) := by
  obtain ⟨acts,hacts⟩ := h.sema
  have hsound := LightweightSemaphore.sound_of_reaches hcard le_rfl hacts
  have hunits := hsound.units
  have hwakes := hsound.wakes
  have hgained := gained_nonneg hsound
  have howed := LightweightSemaphore.owed_nonneg s.sema
  have hunsaid := unsaid_nonneg hsound
  have hsignalled := h.matched.signalled
  have hacquired := h.matched.acquired
  have hburden := sum_burden_le_needs h.matched hplace
  have heach : ∀ p,available (s.inner p)=(s.inner p).tail-(s.inner p).delivered.length-
      ∑ j,(burden ((s.inner p).phase j) : ℤ) := by
    intro p
    obtain ⟨acts,hacts⟩ := h.inner p
    obtain ⟨⟨fate,hbooked⟩,-⟩ := SubqueueClaims.invariants_of_reaches hw hblock hfits hacts
    exact available_eq hbooked
  have hsum : ∑ p,available (s.inner p)=published s-movedOut s-
      ∑ j,∑ p,(burden ((s.inner p).phase j) : ℤ) := by
    rw [Finset.sum_comm]
    simp only [heach,Finset.sum_sub_distrib]
    rfl
  unfold LightweightSemaphore.shortage at hwakes
  omega

/-- Some listed sub-queue has an element nobody holds a number for. -/
theorem exists_available {spins w block : ℕ} (hcard : Fintype.card ι < 2147483648) (hw : 0 < w)
    (hblock : 0 < block) (hfits : block ≤ half w) (h : Whole spins w block s) {i : ι}
    (hplace : (s.control i).place=none) (hneed : 0 < (s.control i).need) :
    ∃ p∈s.producers,0 < available (s.inner p) := by
  have hsum := need_le_sum_available hcard hw hblock hfits h hplace
  have hpos : ∃ p,0 < available (s.inner p) := by
    by_contra hnone
    push Not at hnone
    have hle := Finset.sum_nonpos fun p (_ : p∈Finset.univ) => hnone p
    omega
  obtain ⟨p,hp⟩ := hpos
  refine ⟨p,?_,hp⟩
  by_contra hnot
  obtain ⟨acts,hacts⟩ := h.inner p
  obtain ⟨⟨fate,hbooked⟩,-⟩ := SubqueueClaims.invariants_of_reaches hw hblock hfits hacts
  have hle := available_nonpos hbooked (h.matched.listed p hnot).2
  omega

omit [DecidableEq ι] in
/-- With no thread in a call nobody is in the semaphore or in a sub-queue. -/
theorem Matched.quiescent (h : Matched s) (hidle : ∀ i,s.control i=.idle) :
    needs s=0 ∧ unsaid s=0 ∧ (∀ i,s.sema.phase i=.outside) ∧ ∀ p i,(s.inner p).phase i=.idle := by
  have houtside : ∀ i,s.sema.phase i=.outside := by
    intro i
    have hi := h.agrees i
    rwa [hidle i] at hi
  refine ⟨total_eq_zero _ _ fun i => by rw [hidle i]; rfl,?_,houtside,fun p i => ?_⟩
  · have hcontrol : total (fun _ (c : Control ι) => (c.unsaid : ℤ)) s.control=0 :=
      total_eq_zero _ _ fun i => by rw [hidle i]; rfl
    have hphase : total (fun _ y => LightweightSemaphore.Phase.unsaid y) s.sema.phase=0 :=
      total_eq_zero _ _ fun i => by rw [houtside i]; rfl
    rw [unsaid,hcontrol,hphase,add_zero]
  · refine h.away i p ?_
    rw [hidle i]
    intro hc
    cases hc

omit [DecidableEq ι] in
/-- A semaphore with nobody inside holds all its units in the count. -/
theorem count_of_outside {v : LightweightSemaphore.State ι} (h : LightweightSemaphore.Sound 0 v)
    (houtside : ∀ i,v.phase i=.outside) : 0 ≤ v.count ∧ v.count=v.signalled-v.acquired := by
  have hasleep : LightweightSemaphore.asleep v=0 := total_eq_zero _ _ fun i => by
    rw [houtside i]
    rfl
  have hgained : LightweightSemaphore.gained v=0 := total_eq_zero _ _ fun i => by
    rw [houtside i]
    rfl
  have howed : LightweightSemaphore.owed v=0 := total_eq_zero _ _ fun i => by
    rw [houtside i]
    rfl
  have hunits := h.units
  have hwakes := h.wakes
  unfold LightweightSemaphore.shortage at hwakes
  omega

end Supply

section Runs

variable {spins w block : ℕ} {acts : List (Act ι α)} {s : State ι α}

end Runs

/-- Threads 0 and 1 store one element each. Thread 2 takes a unit, chooses the
sub-queue of thread 1 and stops with a number drawn there. Thread 0 takes the
other unit. -/
def stoppedRun : List (Act (Fin 3) ℕ) :=
  [.enqueue 0,.store 0 (.reserve 0),.store 0 (.construct 10),.publish 0,.signal 0,.sema 0 (.add 0),
    .enqueue 1,.store 1 (.reserve 0),.store 1 (.construct 20),.publish 1,.signal 1,.sema 1 (.add 1),
    .request 2 .waitDequeue,.ask 2,.sema 2 (.load 2 2),.sema 2 (.exchange 2),.look 2 0,.size 2 1 0,
    .size 2 1 0,.choose 2,.inner 2 (.loadTail 2 1),.inner 2 (.loadOvercommit 2 0),
    .inner 2 (.test 2 0),.inner 2 (.count 2),.request 0 .tryDequeue,.ask 0,.sema 0 (.load 0 1),
    .sema 0 (.exchange 0)]

end FastEventSystem.BlockingQueue
