import FastEventSystem.SubqueueClaims

/-!
# What a sub-queue of the vendored queue delivers

The words of a sub-queue may wrap around as often as they like: the producer
takes a new block only if that leaves less than half the range of a word between
the head it has seen and the end of the block. So the tail is always less than
half the range ahead of the head, the comparisons mean what they say, and every
published element is moved out by one consumer. A call by itself behaves as on a
plain queue.
-/

namespace FastEventSystem.SubqueueClaims

open CircularWords GuardedRuns PartyTotals TicketFates

variable {ι α : Type*} [DecidableEq ι] [Fintype ι]

/-- The producer's blocks: it never holds more indices than half the range
beyond the head it has seen. -/
structure Roomy (w block : ℕ) (s : State ι α) : Prop where
  /-- Whole blocks. -/
  whole : block ∣ s.room
  /-- What was constructed lies in them. -/
  covers : s.written.length ≤ s.room
  /-- The head it has seen is an older one. -/
  seen : s.seen ≤ s.head
  /-- The leeway. -/
  near : s.room < s.seen+half w

omit [Fintype ι] [DecidableEq ι] in
/-- A new sub-queue has no blocks. -/
theorem roomy_start (w block : ℕ) : Roomy w block (.start : State ι α) :=
  ⟨dvd_zero block,le_rfl,le_rfl,Nat.add_pos_right 0 (Nat.two_pow_pos _)⟩

omit [Fintype ι] [DecidableEq ι] in
/-- Blocks for all published elements are not more than there are. -/
theorem roundUp_le {block tail room : ℕ} (hblock : 0 < block) (hwhole : block ∣ room)
    (hle : tail ≤ room) : (tail+block-1)/block*block ≤ room := by
  obtain ⟨n,rfl⟩ := hwhole
  have hdiv : (tail+block-1)/block ≤ n := by
    rw [Nat.div_le_iff_le_mul_add_pred hblock]
    omega
  calc (tail+block-1)/block*block ≤ n*block := Nat.mul_le_mul_right _ hdiv
    _ = block*n := Nat.mul_comm _ _

omit [Fintype ι] [DecidableEq ι] in
/-- They are enough. -/
theorem le_roundUp {block : ℕ} (hblock : 0 < block) (tail : ℕ) :
    tail ≤ (tail+block-1)/block*block := by
  have hdiv := Nat.div_add_mod (tail+block-1) block
  have hmod := Nat.mod_lt (tail+block-1) hblock
  rw [Nat.mul_comm] at hdiv
  omega

/-- Every step keeps the leeway. -/
theorem roomy_step {w block : ℕ} (hw : 0 < w) (hblock : 0 < block) (hfits : block ≤ half w)
    {s s' : State ι α} {a : Act ι α} {fate : ℕ → Fate} (hbooked : Booked fate s)
    (h : Roomy w block s) (hn : next w block s a=some s') : Roomy w block s' := by
  have hwhole := h.whole
  have hcovers := h.covers
  have hseen := h.seen
  have hnear := h.near
  have hpublished := hbooked.published
  have hle := hbooked.head_add_claims_le
  have hrange := two_mul_half hw
  cases next_effect hn with
  | reserves head hlow hhigh hless =>
    have hlt := lt_add_half_of_circularLessThan hw (by omega) (by omega) hless
    exact ⟨(Nat.dvd_add_right hwhole).mpr dvd_rfl,hcovers.trans (Nat.le_add_right _ _),hhigh,hlt⟩
  | refused head hlow hhigh => exact ⟨hwhole,hcovers,hhigh,by simp only; omega⟩
  | constructs x hroom =>
    refine ⟨hwhole,?_,hseen,hnear⟩
    simp only [List.length_append,List.length_singleton]
    omega
  | publishes => exact ⟨hwhole,hcovers,hseen,hnear⟩
  | abandons =>
    have hroom := roundUp_le hblock hwhole (hpublished.trans hcovers)
    have hcover := le_roundUp hblock s.tail
    refine ⟨Nat.dvd_mul_left _ _,?_,hseen,?_⟩
    · rw [List.length_take]
      exact (min_le_left _ _).trans hcover
    · simp only
      omega
  | claims i actual hp => exact ⟨hwhole,hcovers,hseen.trans (Nat.le_add_right _ _),hnear⟩
  | moves => exact ⟨hwhole,hcovers,hseen,hnear⟩
  | counts => exact ⟨hwhole,hcovers,hseen,hnear⟩
  | settles => exact ⟨hwhole,hcovers,hseen,hnear⟩
  | refunds => exact ⟨hwhole,hcovers,hseen,hnear⟩
  | takes => exact ⟨hwhole,hcovers,hseen,hnear⟩

/-- Every consumer moves indices out in increasing order; the newest receipt is
the first of the list. -/
structure Ordered (s : State ι α) : Prop where
  /-- What it has moved out. -/
  sorted : s.delivered.Pairwise fun r r' => r.consumer=r'.consumer → r'.index < r.index
  /-- What it holds comes later. -/
  later : ∀ i,∀ k∈(s.phase i).held,∀ r∈s.delivered,r.consumer=i → r.index < k

omit [Fintype ι] in
/-- Moving one consumer keeps the order if what it holds then comes later. -/
theorem ordered_goto {s s' : State ι α} {i : ι} {q : Phase} (h : Ordered s)
    (hphase : s'.phase=Function.update s.phase i q) (hsame : s'.delivered=s.delivered)
    (hlater : ∀ k∈q.held,∀ r∈s.delivered,r.consumer=i → r.index < k) : Ordered s' := by
  refine ⟨hsame.symm ▸ h.sorted,fun j k hk r hr hj => ?_⟩
  rw [hphase] at hk
  rw [hsame] at hr
  by_cases hji : j=i
  · subst hji
    rw [Function.update_self] at hk
    exact hlater k hk r hr hj
  · rw [Function.update_of_ne hji] at hk
    exact h.later j k hk r hr hj

/-- Every step keeps the order. -/
theorem ordered_step {w block : ℕ} {s s' : State ι α} {a : Act ι α} {fate : ℕ → Fate}
    (hbooked : Booked fate s) (h : Ordered s) (hn : next w block s a=some s') : Ordered s' := by
  cases next_effect hn with
  | reserves => exact ⟨h.sorted,h.later⟩
  | refused => exact ⟨h.sorted,h.later⟩
  | constructs => exact ⟨h.sorted,h.later⟩
  | publishes => exact ⟨h.sorted,h.later⟩
  | abandons => exact ⟨h.sorted,h.later⟩
  | moves a i p q hp hquiet _ _ =>
    refine ordered_goto h rfl rfl ?_
    rw [hquiet.held,←hp]
    exact h.later i
  | counts i c desired overcommit hp =>
    exact ordered_goto h rfl rfl fun _ hk => (Multiset.notMem_zero _ hk).elim
  | settles i tail c desired overcommit my hp _ =>
    refine ordered_goto h rfl rfl fun k hk => ?_
    unfold afterSettle at hk
    split at hk <;> exact (Multiset.notMem_zero _ hk).elim
  | refunds i surplus actual hp =>
    refine ordered_goto h rfl rfl fun k hk => ?_
    unfold afterRefund at hk
    split at hk <;> exact (Multiset.notMem_zero _ hk).elim
  | claims i actual hp =>
    refine ordered_goto h rfl rfl fun k hk r hr _ => ?_
    have hindex := hbooked.index_lt hr
    obtain ⟨hlow,-⟩ := List.mem_range'_1.mp (Multiset.mem_coe.mp hk)
    omega
  | takes i index left x hp _ =>
    have hmine : ∀ r∈s.delivered,r.consumer=i → r.index < index := by
      refine h.later i index ?_
      rw [hp]
      exact Multiset.mem_coe.mpr (List.mem_range'_1.mpr ⟨le_rfl,by omega⟩)
    refine ⟨List.pairwise_cons.mpr ⟨fun r hr hi => hmine r hr hi.symm,h.sorted⟩,?_⟩
    intro j k hk r hr hj
    by_cases hji : j=i
    · subst hji
      change k∈(Function.update s.phase j _ j).held at hk
      rw [Function.update_self,(@afterTake_spec ι α (index+1) left).2.2.2.1] at hk
      obtain ⟨hlow,-⟩ := List.mem_range'_1.mp (Multiset.mem_coe.mp hk)
      rcases List.mem_cons.mp hr with rfl|hr
      · simp only
        omega
      · have hlt := hmine r hr hj
        omega
    · change k∈(Function.update s.phase i _ j).held at hk
      rw [Function.update_of_ne hji] at hk
      rcases List.mem_cons.mp hr with rfl|hr
      · exact (hji hj.symm).elim
      · exact h.later j k hk r hr hj

omit [Fintype ι] in
/-- All consumers stay alive when the moved one does. -/
theorem alive_update {phase : ι → Phase} {i : ι} {q : Phase} (h : ∀ j,(phase j).Alive)
    (hq : q.Alive) (j : ι) : (Function.update phase i q j).Alive := by
  by_cases hj : j=i
  · subst hj
    rw [Function.update_self]
    exact hq
  · rw [Function.update_of_ne hj]
    exact h j

/-- Every step leaves the consumers inside a call something to take. -/
theorem alive_step {w block : ℕ} {s s' : State ι α} {a : Act ι α} {fate : ℕ → Fate}
    (hbooked : Booked fate s) (h : ∀ i,(s.phase i).Alive) (hn : next w block s a=some s') (i : ι) :
    (s'.phase i).Alive := by
  cases next_effect hn with
  | reserves => exact h i
  | refused => exact h i
  | constructs => exact h i
  | publishes => exact h i
  | abandons => exact h i
  | moves a j p q hp _ _ halive => exact alive_update h (halive (hp ▸ h j)) i
  | counts j c desired overcommit hp =>
    have hj := h j
    rw [hp] at hj
    refine alive_update h (.inr ?_) i
    exact hj.resolve_left nofun
  | settles j tail c desired overcommit my hp _ =>
    have hfits := hbooked.fits j
    rw [hp] at hfits
    have hpos := hfits.1
    refine alive_update h (.inr ?_) i
    unfold afterSettle
    split
    · change 0 < _+_
      omega
    · change 0 < Call.grants _ _ _ _ _
      omega
  | refunds j surplus actual hp =>
    refine alive_update h ?_ i
    unfold afterRefund
    split
    · exact .inl rfl
    · rename_i hactual
      exact .inr (Nat.pos_of_ne_zero hactual)
  | claims j actual hp =>
    have hj := h j
    rw [hp] at hj
    refine alive_update h (.inr ?_) i
    exact hj.resolve_left nofun
  | takes j index left x hp _ =>
    refine alive_update h ?_ i
    unfold afterTake
    split
    · exact .inl rfl
    · rename_i hleft
      exact .inr (Nat.pos_of_ne_zero hleft)

section Runs

variable {w block : ℕ} {acts : List (Act ι α)} {s : State ι α}

/-- Along every run the books balance, there is leeway, the order is kept and
the consumers are alive. -/
theorem invariants_of_reaches (hw : 0 < w) (hblock : 0 < block) (hfits : block ≤ half w)
    (h : Reaches (next w block) (Recent w) .start acts s) :
    (∃ fate,Booked fate s) ∧ Roomy w block s ∧ Ordered s ∧ ∀ i,(s.phase i).Alive := by
  refine h.invariant (I := fun s => (∃ fate,Booked fate s) ∧ Roomy w block s ∧ Ordered s ∧
    ∀ i,(s.phase i).Alive) ⟨⟨_,booked_start⟩,roomy_start w block,⟨.nil,nofun⟩,fun _ => .inl rfl⟩ ?_
  rintro s a s' ⟨⟨fate,hbooked⟩,hroomy,hordered,halive⟩ hrecent hn
  exact ⟨booked_step hw hbooked hrecent hn,roomy_step hw hblock hfits hbooked hroomy hn,
    ordered_step hbooked hordered hn,alive_step hbooked halive hn⟩

omit [DecidableEq ι] in
/-- What was moved out is some of the first elements. -/
theorem Booked.delivered_le {fate : ℕ → Fate} (h : Booked fate s) :
    (s.delivered.map Receipt.element : Multiset α) ≤ (s.written.take s.head : List α) := by
  have hhead := h.head_add_claims_le
  have hpublished := h.published
  have hindices : (s.delivered.map Receipt.index : Multiset ℕ) ≤ Multiset.range s.head := by
    rw [←h.shared]
    exact Multiset.le_add_right _ _
  have hread : s.delivered.map (fun r => some r.element)=
      (s.delivered.map Receipt.index).map (s.written[·]?) := by
    rw [List.map_map]
    exact List.map_congr_left fun r hr => (h.delivered r hr).symm
  have hfirst : (List.range s.head).map (s.written[·]?)=(s.written.take s.head).map some := by
    refine List.ext_getElem ?_ fun k hk _ => ?_
    · rw [List.length_map,List.length_map,List.length_range,List.length_take]
      omega
    · rw [List.length_map,List.length_range] at hk
      rw [List.getElem_map,List.getElem_map,List.getElem_range,List.getElem_take]
      exact List.getElem?_eq_getElem _
  rw [←Multiset.map_le_map_iff (Option.some_injective α),Multiset.map_coe,Multiset.map_coe,
    List.map_map,←hfirst]
  change ((s.delivered.map fun r => some r.element : List (Option α)) : Multiset (Option α)) ≤ _
  rw [hread,←Multiset.map_coe,←Multiset.map_coe]
  exact Multiset.map_le_map hindices

omit [DecidableEq ι] in
/-- With no consumer in a call everything counted was claimed or refunded, and
the elements moved out are the first ones. -/
theorem Booked.quiescent {fate : ℕ → Fate} (h : Booked fate s) (hidle : ∀ i,s.phase i=.idle) :
    s.optimistic=s.head+s.overcommit ∧
      (s.delivered.map Receipt.element).Perm (s.written.take s.head) := by
  have hclaims : claims s=0 := total_eq_zero _ _ fun i => by rw [hidle i]; rfl
  have hsurplus : surplus s=0 := total_eq_zero _ _ fun i => by rw [hidle i]; rfl
  have hunsettled : unsettled s=0 := total_eq_zero _ _ fun i => by rw [hidle i]; rfl
  have hheld : held s=0 := total_eq_zero _ _ fun i => by rw [hidle i]; rfl
  have hspent := h.spent
  have hshared := congrArg Multiset.card h.shared
  rw [hheld,add_zero,Multiset.coe_card,List.length_map,Multiset.card_range] at hshared
  refine ⟨by omega,Multiset.coe_eq_coe.mp (Multiset.eq_of_le_of_card_le h.delivered_le ?_)⟩
  rw [Multiset.coe_card,Multiset.coe_card,List.length_map,List.length_take,hshared]
  exact min_le_left _ _

/-- In every run, with words which wrap around and loads which are outdated, no
more is claimed than was published, and the producer stays within half the range
of a word, as its assertion about the head says. Every claimed index is moved
out or about to be, by one consumer, with the element constructed there; each
consumer gets them in the order of the producer. Once no consumer is in a call,
exactly the first elements have been moved out. -/
theorem each_element_taken_once (hw : 0 < w) (hblock : 0 < block) (hfits : block ≤ half w)
    (h : Reaches (next w block) (Recent w) .start acts s) :
    (s.head ≤ s.tail ∧ s.tail ≤ s.written.length ∧ s.written.length ≤ s.room ∧
      s.room < s.head+half w ∧
      ∀ head,s.seen ≤ head → head ≤ s.head →
        circularLessThan (word w s.room) (word w head)=false) ∧
    (s.delivered.map Receipt.index : Multiset ℕ)+held s=Multiset.range s.head ∧
    (∀ r∈s.delivered,s.written[r.index]?=some r.element) ∧
    s.delivered.Pairwise (fun r r' => r.consumer=r'.consumer → r'.index < r.index) ∧
    (∀ i index left,s.phase i=.taking index (left+1) → (next w block s (.take i)).isSome) ∧
    ((∀ i,s.phase i=.idle) → s.optimistic=s.head+s.overcommit ∧
      (s.delivered.map Receipt.element).Perm (s.written.take s.head)) := by
  obtain ⟨⟨fate,hbooked⟩,hroomy,hordered,-⟩ := invariants_of_reaches hw hblock hfits h
  have hle := hbooked.head_add_claims_le
  have hpublished := hbooked.published
  have hcovers := hroomy.covers
  have hseen := hroomy.seen
  have hnear := hroomy.near
  refine ⟨⟨by omega,hpublished,hcovers,by omega,fun head hlow hhigh => ?_⟩,hbooked.shared,
    hbooked.delivered,hordered.sorted,fun i index left hp => ?_,hbooked.quiescent⟩
  · rw [Bool.eq_false_iff]
    intro hless
    have hlt := lt_of_circularLessThan hw (by omega) hless
    omega
  · have hmem : index∈(s.delivered.map Receipt.index : Multiset ℕ)+held s := by
      refine Multiset.mem_add.mpr (.inr (Multiset.mem_sum.mpr ⟨i,Finset.mem_univ i,?_⟩))
      rw [hp]
      exact Multiset.mem_coe.mpr (List.mem_range'_1.mpr ⟨le_rfl,by omega⟩)
    rw [hbooked.shared,Multiset.mem_range] at hmem
    simp only [next,hp,Option.isSome_map]
    rw [List.getElem?_eq_getElem (by omega)]
    rfl

end Runs

/-- Two elements are published and moved out by one bulk call. -/
def fullRound (k : ℕ) : List (Act (Fin 2) ℕ) :=
  [.reserve (2*k),.construct (2*k),.construct (2*k+1),.publish,.call 0 (.dequeueBulk 2),
    .loadTail 0 (2*k+2),.loadOvercommit 0 0,.test 0 (2*k),.count 0,.settle 0 (2*k+2),.claim 0,
    .take 0,.take 0]

/-- After five rounds words of three bits have wrapped around. Both consumers
then see one element; the slower one gets a number beyond the tail and gives it
back. -/
def wrappedRun : List (Act (Fin 2) ℕ) :=
  (List.range 5).flatMap fullRound++
    [.reserve 10,.construct 10,.publish,.call 0 .dequeue,.call 1 (.dequeueBulk 3),.loadTail 0 11,
      .loadOvercommit 0 0,.test 0 10,.loadTail 1 11,.loadOvercommit 1 0,.test 1 10,.count 1,
      .count 0,.settle 0 11,.settle 1 11,.refund 0,.claim 1,.take 1]

/-- All eleven elements were moved out once. -/
theorem each_element_taken_once_wrapped :
    ∃ s : State (Fin 2) ℕ,Reaches (next 3 2) (Recent 3) .start wrappedRun s ∧
      s.overcommit=1 ∧ s.optimistic=12 ∧ s.written.take s.head=List.range 11 ∧
      (s.delivered.map Receipt.element).Perm (s.written.take s.head) := by
  obtain ⟨s,hs,hseen⟩ := reaches_of_replay (next 3 2) (Recent 3) .start wrappedRun
    (fun s => (s.overcommit,s.optimistic,s.written.take s.head,s.phase 0,s.phase 1))
    (1,12,List.range 11,.idle,.idle) (by decide +kernel)
  simp only [Prod.mk.injEq] at hseen
  obtain ⟨hover,hoptimistic,hwritten,hzero,hone⟩ := hseen
  have hidle : ∀ i,s.phase i=.idle := Fin.forall_fin_two.mpr ⟨hzero,hone⟩
  obtain ⟨-,-,-,-,-,hquiescent⟩ :=
    each_element_taken_once (by decide) (by decide) (by decide) hs
  exact ⟨s,hs,hover,hoptimistic,hwritten,(hquiescent hidle).2⟩

section Calls

variable {w block : ℕ} {acts : List (Act ι α)} {s : State ι α}

/-- The steps of a consumer which has begun a call and takes so many elements,
with loads that are up to date. -/
def alone (s : State ι α) (i : ι) (n : ℕ) : List (Act ι α) :=
  [.loadTail i s.tail,.loadOvercommit i s.overcommit,.test i s.optimistic]++
    if n=0 then [] else [.count i,.settle i s.tail,.claim i]++List.replicate n (.take i)

omit [Fintype ι] [DecidableEq ι] in
/-- They are all steps of this consumer inside its call. -/
theorem alone_inside (s : State ι α) (i : ι) (n : ℕ) (a : Act ι α) (h : a∈alone s i n) :
    a.consumer=some i ∧ a.begins=false := by
  rcases List.mem_append.mp h with h|h
  · simp only [List.mem_cons,List.not_mem_nil,or_false] at h
    rcases h with rfl|rfl|rfl <;> exact ⟨rfl,rfl⟩
  · split at h
    · exact False.elim (List.not_mem_nil h)
    · rcases List.mem_append.mp h with h|h
      · simp only [List.mem_cons,List.not_mem_nil,or_false] at h
        rcases h with rfl|rfl|rfl <;> exact ⟨rfl,rfl⟩
      · rw [List.eq_of_mem_replicate h]
        exact ⟨rfl,rfl⟩

/-- The whole call. -/
def undisturbed (s : State ι α) (i : ι) (c : Call) (n : ℕ) : List (Act ι α) :=
  .call i c::alone s i n

omit [Fintype ι] [DecidableEq ι] in
/-- The words of the counters: what is compared and what is subtracted, where
`front` is the next number less the refunded ones. -/
theorem remaining_eq (hw : 0 < w) {front tail o : ℕ} (hbehind : front ≤ tail+half w)
    (hahead : tail < front+half w) :
    circularLessThan (word w (front+o)-word w o) (word w tail)=decide (front < tail) ∧
      (front < tail → (word w tail-(word w (front+o)-word w o)).toNat=tail-front) := by
  have hrange := two_mul_half hw
  have hback : word w (front+o)-word w o=word w front := by
    rw [word_sub (Nat.le_add_left _ _),Nat.add_sub_cancel]
  rw [hback]
  constructor
  · rw [Bool.eq_iff_iff,decide_eq_true_iff]
    constructor
    · exact lt_of_circularLessThan hw hbehind
    · exact fun hlt => circularLessThan_of_lt hw hlt hahead
  · intro hlt
    rw [word_sub hlt.le,word,BitVec.toNat_ofNat,Nat.mod_eq_of_lt (by omega)]

omit [Fintype ι] [DecidableEq ι] in
/-- The first test asks for what there is, up to the limit. -/
theorem wants_eq (hw : 0 < w) (c : Call) {front tail o : ℕ} (hbehind : front ≤ tail+half w)
    (hahead : tail < front+half w) :
    c.wants (word w tail) (word w (front+o)) (word w o)=min c.limit (tail-front) := by
  obtain ⟨hless,hvalue⟩ := remaining_eq (o := o) hw hbehind hahead
  cases c with
  | dequeue =>
    simp only [Call.wants,Call.limit,hless,decide_eq_true_iff]
    split_ifs <;> omega
  | dequeueBulk max =>
    simp only [Call.wants,Call.limit,circularLessThan_zero,hless,decide_eq_true_iff]
    split
    · rename_i hlt
      rw [hvalue hlt]
      split_ifs <;> omega
    · omega

omit [Fintype ι] [DecidableEq ι] in
/-- The second test grants what was asked for. -/
theorem grants_eq (hw : 0 < w) (c : Call) {front tail o : ℕ} (hbehind : front ≤ tail+half w)
    (hahead : tail < front+half w) :
    c.grants (word w tail) (word w (front+o)) (word w o) (min c.limit (tail-front))=
      min c.limit (tail-front) := by
  obtain ⟨hless,hvalue⟩ := remaining_eq (o := o) hw hbehind hahead
  cases c with
  | dequeue =>
    simp only [Call.grants,Call.limit,hless,decide_eq_true_iff]
    split_ifs <;> omega
  | dequeueBulk max =>
    have hle := Nat.min_le_right (Call.dequeueBulk max).limit (tail-front)
    generalize min (Call.dequeueBulk max).limit (tail-front)=n at hle
    simp only [Call.grants,circularLessThan_zero,hless,decide_eq_true_iff]
    split
    · rename_i hlt
      rw [hvalue hlt]
      split <;> omega
    · omega

omit [Fintype ι] in
/-- A consumer which holds indices moves them out one after the other. -/
theorem replay_takes {i : ι} {index n : ℕ} {s : State ι α} (hp : s.phase i=afterTake index n)
    (hlen : index+n ≤ s.written.length) :
    ∃ rs,replay (next w block) (Recent w) s (List.replicate n (.take i))=
        some {s.goto i .idle with delivered := rs++s.delivered} ∧
      rs.reverse.map Receipt.element=(s.written.drop index).take n ∧ ∀ r∈rs,r.consumer=i := by
  induction n generalizing s index with
  | zero =>
    refine ⟨[],?_,by rw [List.take_zero]; rfl,nofun⟩
    have hidle : s.goto i .idle=s := by
      rw [State.goto,←(show s.phase i=.idle from hp),Function.update_eq_self]
    rw [hidle]
    rfl
  | succ n ih =>
    have hlt : index < s.written.length := by omega
    have hstep : next w block s (.take i)=some {s.goto i (afterTake (index+1) n) with
        delivered := ⟨i,index,s.written[index]⟩::s.delivered} := by
      rw [afterTake,if_neg (Nat.succ_ne_zero n)] at hp
      simp only [next,hp,List.getElem?_eq_getElem hlt,Option.map_some]
    have hrecent : Recent w s (.take i) := Nat.zero_le _
    obtain ⟨rs,hrun,helements,hconsumer⟩ := @ih (index+1)
      {s.goto i (afterTake (index+1) n) with
        delivered := ⟨i,index,s.written[index]⟩::s.delivered}
      (s.goto_phase i _) (by simp only [State.goto]; omega)
    refine ⟨rs++[⟨i,index,s.written[index]⟩],?_,?_,?_⟩
    · rw [List.replicate_succ,replay_cons hrecent hstep,hrun]
      simp only [State.goto,Function.update_idem,List.append_assoc,List.singleton_append]
    · rw [List.reverse_append,List.reverse_singleton,List.singleton_append,List.map_cons,
        helements,List.drop_eq_getElem_cons hlt,List.take_succ_cons]
      rfl
    · intro r hr
      rcases List.mem_append.mp hr with hr|hr
      · exact hconsumer r hr
      · rw [List.mem_singleton.mp hr]

/-- A consumer whose steps nobody interrupts takes what it asks for or what there
is without a number, wherever the other consumers have stopped. -/
theorem replay_alone {fate : ℕ → Fate} (hw : 0 < w) (hbooked : Booked fate s)
    (hroomy : Roomy w block s) {i : ι} (hi : s.phase i=.idle) (c : Call) {front n : ℕ}
    (hfront : s.optimistic=front+s.overcommit) (hbehind : front ≤ s.tail+half w)
    (hn : min c.limit (s.tail-front)=n) :
    ∃ rs,replay (next w block) (Recent w) (s.goto i (.asking c)) (alone s i n)=
        some {s with
          optimistic := s.optimistic+n
          head := s.head+n
          delivered := rs++s.delivered} ∧
      rs.reverse.map Receipt.element=(s.written.drop s.head).take n ∧ ∀ r∈rs,r.consumer=i := by
  have hspent := hbooked.spent
  have hpublished := hbooked.published
  have hcovers := hroomy.covers
  have hseen := hroomy.seen
  have hnear := hroomy.near
  have hwants := wants_eq (o := s.overcommit) hw c hbehind (by omega)
  have hgrants := grants_eq (o := s.overcommit) hw c hbehind (by omega)
  rw [←hfront,hn] at hwants hgrants
  have hidling : s.goto i .idle=s := by
    rw [State.goto,←hi,Function.update_eq_self]
  have hload : next w block (s.goto i (.asking c)) (.loadTail i s.tail)=
      some (s.goto i (.sawTail c s.tail)) := by
    simp only [next,State.goto_phase,State.goto_goto]
    exact if_pos le_rfl
  have hload' : next w block (s.goto i (.sawTail c s.tail)) (.loadOvercommit i s.overcommit)=
      some (s.goto i (.sawBoth c s.tail s.overcommit)) := by
    simp only [next,State.goto_phase,State.goto_goto]
    exact if_pos le_rfl
  have htest : next w block (s.goto i (.sawBoth c s.tail s.overcommit)) (.test i s.optimistic)=
      some (s.goto i (if n=0 then .idle else .entering c n s.overcommit)) := by
    simp only [next,State.goto_phase,State.goto_goto,hwants]
    exact if_pos le_rfl
  rw [alone,List.cons_append,List.cons_append,List.cons_append,List.nil_append,
    replay_cons (Nat.zero_le _ : Recent w _ _) hload,
    replay_cons (Nat.zero_le _ : Recent w _ _) hload',
    replay_cons (Nat.zero_le _ : Recent w _ _) htest]
  by_cases hzero : n=0
  · subst hzero
    refine ⟨[],?_,by rw [List.take_zero]; rfl,by intro r hr; cases hr⟩
    rw [if_pos rfl,if_pos rfl,hidling]
    rfl
  · have hcount : next w block (s.goto i (.entering c n s.overcommit)) (.count i)=
        some {s.goto i (.counted c n s.overcommit s.optimistic) with
          optimistic := s.optimistic+n} := by
      simp only [next,State.goto_phase,State.goto_goto]
      rfl
    have hsettle : next w block {s.goto i (.counted c n s.overcommit s.optimistic) with
          optimistic := s.optimistic+n} (.settle i s.tail)=
        some {s.goto i (.claiming n) with optimistic := s.optimistic+n} := by
      simp only [next,State.goto_phase,hgrants,afterSettle,lt_irrefl,if_false]
      rw [if_pos (by exact le_rfl)]
      simp only [State.goto,Function.update_idem]
    have hrecent : Recent w {s.goto i (.counted c n s.overcommit s.optimistic) with
        optimistic := s.optimistic+n} (.settle i s.tail) := by
      simp only [Recent,ahead,State.goto_phase]
      omega
    have hclaim : next w block {s.goto i (.claiming n) with optimistic := s.optimistic+n}
        (.claim i)=some {s.goto i (.taking s.head n) with
          optimistic := s.optimistic+n
          head := s.head+n} := by
      simp only [next,State.goto_phase,Option.some.injEq]
      simp only [State.goto,Function.update_idem]
    have hholds : (s.goto i (.taking s.head n)).phase i=afterTake s.head n := by
      rw [State.goto_phase,afterTake,if_neg hzero]
    obtain ⟨rs,hrun,helements,hconsumer⟩ := @replay_takes ι α _ w block i s.head n
      {s.goto i (.taking s.head n) with
        optimistic := s.optimistic+n
        head := s.head+n}
      hholds (by simp only [State.goto]; omega)
    refine ⟨rs,?_,helements,hconsumer⟩
    rw [if_neg hzero,if_neg hzero,List.cons_append,List.cons_append,List.cons_append,
      List.nil_append,replay_cons (Nat.zero_le _ : Recent w _ _) hcount,
      replay_cons hrecent hsettle,replay_cons (Nat.zero_le _ : Recent w _ _) hclaim,hrun]
    simp only [State.goto,Function.update_idem]
    rw [←hi,Function.update_eq_self]

/-- In every state without a consumer in a call, reached while no consumer decided
on values older than half the range of a word, a call which runs by itself with up
to date values takes exactly as many elements as it asks for or as there are, the
oldest ones, in order; it leaves the sub-queue as it was if there are none. A bulk
call for no element is left out. -/
theorem undisturbed_call_takes_oldest (hw : 0 < w) (hblock : 0 < block) (hfits : block ≤ half w)
    (h : Reaches (next w block) (Recent w) .start acts s) (hidle : ∀ j,s.phase j=.idle)
    (i : ι) (c : Call) (hc : c≠.dequeueBulk 0) :
    ∃ rs,replay (next w block) (Recent w) s (undisturbed s i c (min c.limit (s.tail-s.head)))=
        some {s with
          optimistic := s.optimistic+min c.limit (s.tail-s.head)
          head := s.head+min c.limit (s.tail-s.head)
          delivered := rs++s.delivered} ∧
      rs.reverse.map Receipt.element=
        (s.written.drop s.head).take (min c.limit (s.tail-s.head)) ∧
      ∀ r∈rs,r.consumer=i := by
  obtain ⟨⟨fate,hbooked⟩,hroomy,-⟩ := invariants_of_reaches hw hblock hfits h
  obtain ⟨hoptimistic,-⟩ := hbooked.quiescent hidle
  have hle := hbooked.head_add_claims_le
  have hcall : next w block s (.call i c)=some (s.goto i (.asking c)) := if_pos ⟨hidle i,hc⟩
  rw [undisturbed,replay_cons (Nat.zero_le _ : Recent w _ _) hcall]
  exact replay_alone hw hbooked hroomy (hidle i) c hoptimistic (by omega) rfl

end Calls

/-- A bulk call which asks for three elements finds the two which are left,
though the words have wrapped around and a number has been given back. -/
theorem undisturbed_call_takes_oldest_wrapped :
    ∃ (s : State (Fin 2) ℕ) (rs : List (Receipt (Fin 2) ℕ)),
      Reaches (next 3 2) (Recent 3) .start
        (wrappedRun++[.construct 11,.reserve 11,.construct 12,.publish]) s ∧
      (replay (next 3 2) (Recent 3) s (undisturbed s 0 (.dequeueBulk 3) 2)).map
        State.delivered=some (rs++s.delivered) ∧
      rs.reverse.map Receipt.element=[11,12] := by
  obtain ⟨s,hs,hseen⟩ := reaches_of_replay (next 3 2) (Recent 3) .start
    (wrappedRun++[.construct 11,.reserve 11,.construct 12,.publish])
    (fun s => (s.tail,s.head,s.written.drop s.head,s.phase 0,s.phase 1))
    (13,11,[11,12],.idle,.idle) (by decide +kernel)
  simp only [Prod.mk.injEq] at hseen
  obtain ⟨htail,hhead,hwritten,hzero,hone⟩ := hseen
  have hidle : ∀ i,s.phase i=.idle := Fin.forall_fin_two.mpr ⟨hzero,hone⟩
  obtain ⟨rs,hrun,helements,-⟩ :=
    undisturbed_call_takes_oldest (by decide) (by decide) (by decide) hs hidle 0 (.dequeueBulk 3)
      (by decide)
  have hcount : min (Call.dequeueBulk 3).limit (s.tail-s.head)=2 := by
    rw [htail,hhead]
    rfl
  rw [hcount] at hrun helements
  refine ⟨s,rs,hs,?_,?_⟩
  · rw [hrun]
    rfl
  · rw [helements,hwritten]
    rfl

end FastEventSystem.SubqueueClaims
