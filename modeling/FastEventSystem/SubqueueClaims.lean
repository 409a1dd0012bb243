import FastEventSystem.CircularWords
import FastEventSystem.GuardedRuns
import FastEventSystem.PartyTotals
import FastEventSystem.TicketFates
import Mathlib.Data.Multiset.AddSub

/-!
# How consumers share one sub-queue of the vendored queue

Every thread which enqueues has a sub-queue of its own. Its elements have
consecutive indices; the producer publishes them by storing `tailIndex`. A
consumer raises `dequeueOptimisticCount` first and only then looks whether
there was something for it: if so it raises `headIndex` and the old value is
the index of its element, if not it raises `dequeueOvercommit`. All four are
unsigned words which wrap around, compared by `circular_less_than`.

The counters of a state are the numbers of increments so far, and every
decision reads them as words of `w` bits. Loads may return outdated values.
The bulk operations and the single ones are steps of the same machine. A bulk
operation is for one element at least: the source also accepts a maximum of zero,
which takes nothing.
-/

namespace FastEventSystem.SubqueueClaims

open CircularWords GuardedRuns PartyTotals TicketFates

/-- A dequeue. -/
inductive Call where
  /-- `dequeue`. -/
  | dequeue
  /-- `dequeue_bulk` of at most `max` elements. -/
  | dequeueBulk (max : ℕ)
  deriving DecidableEq

/-- How many elements a call asks for. -/
def Call.limit : Call → ℕ
  | .dequeue => 1
  | .dequeueBulk max => max

/-- What a consumer adds to `dequeueOptimisticCount`; nothing if the sub-queue
looks empty. -/
def Call.wants {w : ℕ} (c : Call) (tail optimistic overcommit : BitVec w) : ℕ :=
  match c with
  | .dequeue => if circularLessThan (optimistic-overcommit) tail=true then 1 else 0
  | .dequeueBulk max =>
    let desiredCount := tail-(optimistic-overcommit)
    if circularLessThan 0 desiredCount=true then
      if desiredCount.toNat < max then desiredCount.toNat else max
    else 0

/-- How many of the wanted elements there are, once the consumer has its old
value of `dequeueOptimisticCount` and has loaded `tailIndex` again. -/
def Call.grants {w : ℕ} (c : Call) (tail myDequeueCount overcommit : BitVec w) (desired : ℕ) : ℕ :=
  match c with
  | .dequeue => if circularLessThan (myDequeueCount-overcommit) tail=true then 1 else 0
  | .dequeueBulk _ =>
    let actualCount := tail-(myDequeueCount-overcommit)
    if circularLessThan 0 actualCount=true then
      if desired < actualCount.toNat then desired else actualCount.toNat
    else 0

/-- Where a consumer stands. -/
inductive Phase where
  /-- In no call. -/
  | idle
  /-- Before the first load of `tailIndex`. -/
  | asking (c : Call)
  /-- Before the load of `dequeueOvercommit`. -/
  | sawTail (c : Call) (tail : ℕ)
  /-- Before the load of `dequeueOptimisticCount`. -/
  | sawBoth (c : Call) (tail overcommit : ℕ)
  /-- Before it adds to `dequeueOptimisticCount`. -/
  | entering (c : Call) (desired overcommit : ℕ)
  /-- Before the second load of `tailIndex`. -/
  | counted (c : Call) (desired overcommit myDequeueCount : ℕ)
  /-- Before it adds to `dequeueOvercommit`; so many elements are still to be
  claimed after that. -/
  | refunding (surplus actual : ℕ)
  /-- Before it adds to `headIndex`. -/
  | claiming (actual : ℕ)
  /-- Moving out the elements from an index on. -/
  | taking (index left : ℕ)
  deriving DecidableEq

/-- Elements the consumer may claim. -/
def Phase.claims : Phase → ℕ
  | .refunding _ actual => actual
  | .claiming actual => actual
  | _ => 0

/-- What the consumer still has to add to `dequeueOvercommit`. -/
def Phase.surplus : Phase → ℕ
  | .refunding surplus _ => surplus
  | _ => 0

/-- What the consumer added to `dequeueOptimisticCount` and has not settled. -/
def Phase.unsettled : Phase → ℕ
  | .counted _ desired _ _ => desired
  | _ => 0

/-- Indices which the consumer has claimed and not moved out yet. -/
def Phase.held : Phase → Multiset ℕ
  | .taking index left => (List.range' index left : List ℕ)
  | _ => 0

/-- The most elements which the consumer's call may still take. -/
def Phase.reach : Phase → ℕ
  | .idle => 0
  | .asking c | .sawTail c _ | .sawBoth c _ _ => c.limit
  | .entering _ desired _ | .counted _ desired _ _ => desired
  | .refunding surplus actual => surplus+actual
  | .claiming actual => actual
  | .taking _ left => left

/-- A consumer inside a call has something to take. -/
def Phase.Alive (p : Phase) : Prop := p=.idle ∨ 0 < p.reach

/-- An element which a consumer has moved out. -/
structure Receipt (ι α : Type*) where
  /-- The consumer. -/
  consumer : ι
  /-- Its index. -/
  index : ℕ
  /-- The element. -/
  element : α
  deriving DecidableEq

/-- The sub-queue, its consumers and the histories. -/
structure State (ι α : Type*) where
  /-- All elements constructed so far, by index. -/
  written : List α
  /-- Indices for which the producer has blocks. -/
  room : ℕ
  /-- The last `headIndex` the producer has loaded. -/
  seen : ℕ
  /-- Increments of `tailIndex`. -/
  tail : ℕ
  /-- Increments of `headIndex`. -/
  head : ℕ
  /-- Increments of `dequeueOptimisticCount`. -/
  optimistic : ℕ
  /-- Increments of `dequeueOvercommit`. -/
  overcommit : ℕ
  /-- Every consumer's position. -/
  phase : ι → Phase
  /-- History of elements moved out. -/
  delivered : List (Receipt ι α)

variable {ι α : Type*}

/-- A new sub-queue and no consumer in a call. -/
def State.start : State ι α := ⟨[],0,0,0,0,0,0,fun _ => .idle,[]⟩

/-- One step of the producer or of a consumer. A load names the value it
returns: any value the counter has had, but the producer never sees `headIndex`
go back. -/
inductive Act (ι α : Type*) where
  /-- The producer loads `headIndex` and gets a block, if there is leeway. -/
  | reserve (head : ℕ)
  /-- The producer constructs an element behind the last one. -/
  | construct (x : α)
  /-- The producer stores `tailIndex`. -/
  | publish
  /-- The producer gives up: what it constructed is destroyed and new blocks
  are given back. -/
  | abandon
  /-- A consumer begins a call. -/
  | call (i : ι) (c : Call)
  /-- The first load of `tailIndex`. -/
  | loadTail (i : ι) (tail : ℕ)
  /-- The load of `dequeueOvercommit`. -/
  | loadOvercommit (i : ι) (overcommit : ℕ)
  /-- The load of `dequeueOptimisticCount`, and the test. -/
  | test (i : ι) (optimistic : ℕ)
  /-- `dequeueOptimisticCount.fetch_add`. -/
  | count (i : ι)
  /-- The second load of `tailIndex`, and the test. -/
  | settle (i : ι) (tail : ℕ)
  /-- `dequeueOvercommit.fetch_add`. -/
  | refund (i : ι)
  /-- `headIndex.fetch_add`. -/
  | claim (i : ι)
  /-- Move one element out. -/
  | take (i : ι)

/-- The consumer which takes a step, if it is not the producer. -/
def Act.consumer : Act ι α → Option ι
  | .reserve _ | .construct _ | .publish | .abandon => none
  | .call i _ | .loadTail i _ | .loadOvercommit i _ | .test i _ | .count i | .settle i _ | .refund i
  | .claim i | .take i => some i

/-- The step begins a call. -/
def Act.begins : Act ι α → Bool
  | .call _ _ => true
  | _ => false

variable [DecidableEq ι]

/-- Move one consumer. -/
def State.goto (s : State ι α) (i : ι) (p : Phase) : State ι α :=
  {s with phase := Function.update s.phase i p}

/-- The consumer which moved. -/
@[simp] theorem State.goto_phase (s : State ι α) (i : ι) (p : Phase) : (s.goto i p).phase i=p :=
  Function.update_self _ _ _

/-- The last of two moves counts. -/
@[simp] theorem State.goto_goto (s : State ι α) (i : ι) (p q : Phase) :
    (s.goto i p).goto i q=s.goto i q := by
  rw [State.goto,State.goto,State.goto,Function.update_idem]

/-- After the second load: what is refunded and what is claimed. -/
def afterSettle (desired actual : ℕ) : Phase :=
  if actual < desired then .refunding (desired-actual) actual else .claiming actual

/-- After the refund: return empty-handed, or claim. -/
def afterRefund (actual : ℕ) : Phase := if actual=0 then .idle else .claiming actual

/-- After an element was moved out: return, or go on with the next one. -/
def afterTake (index left : ℕ) : Phase := if left=0 then .idle else .taking index left

/-- Perform one step on words of `w` bits and with blocks of `block` elements. -/
def next (w block : ℕ) (s : State ι α) : Act ι α → Option (State ι α)
  | .reserve head =>
    if s.seen ≤ head ∧ head ≤ s.head then
      if circularLessThan (word w head) (word w (s.room+block))=true then
        some {s with room := s.room+block,seen := head}
      else some {s with seen := head}
    else none
  | .construct x =>
    if s.written.length < s.room then some {s with written := s.written++[x]} else none
  | .publish => some {s with tail := s.written.length}
  | .abandon => some {s with
      written := s.written.take s.tail
      room := (s.tail+block-1)/block*block}
  | .call i c =>
    if s.phase i=.idle ∧ c≠.dequeueBulk 0 then some (s.goto i (.asking c)) else none
  | .loadTail i tail =>
    match s.phase i with
    | .asking c => if tail ≤ s.tail then some (s.goto i (.sawTail c tail)) else none
    | _ => none
  | .loadOvercommit i overcommit =>
    match s.phase i with
    | .sawTail c tail =>
      if overcommit ≤ s.overcommit then some (s.goto i (.sawBoth c tail overcommit)) else none
    | _ => none
  | .test i optimistic =>
    match s.phase i with
    | .sawBoth c tail overcommit =>
      if optimistic ≤ s.optimistic then
        let desired := c.wants (word w tail) (word w optimistic) (word w overcommit)
        some (s.goto i (if desired=0 then .idle else .entering c desired overcommit))
      else none
    | _ => none
  | .count i =>
    match s.phase i with
    | .entering c desired overcommit =>
      some {s.goto i (.counted c desired overcommit s.optimistic) with
        optimistic := s.optimistic+desired}
    | _ => none
  | .settle i tail =>
    match s.phase i with
    | .counted c desired overcommit my =>
      if tail ≤ s.tail then
        some (s.goto i (afterSettle desired
          (c.grants (word w tail) (word w my) (word w overcommit) desired)))
      else none
    | _ => none
  | .refund i =>
    match s.phase i with
    | .refunding surplus actual =>
      some {s.goto i (afterRefund actual) with
        overcommit := s.overcommit+surplus}
    | _ => none
  | .claim i =>
    match s.phase i with
    | .claiming actual =>
      some {s.goto i (.taking s.head actual) with head := s.head+actual}
    | _ => none
  | .take i =>
    match s.phase i with
    | .taking index (left+1) =>
      s.written[index]?.map fun x => {s.goto i (afterTake (index+1) left) with
        delivered := ⟨i,index,x⟩::s.delivered}
    | _ => none

section Decisions

variable {w : ℕ}

/-- A consumer which is not ahead by more than half the range is granted at most
what there is for it, and at most what it wanted. -/
theorem grants_le (hw : 0 < w) (c : Call) {tail my overcommit desired : ℕ} (hd : 0 < desired)
    (hnear : my ≤ tail+overcommit+half w) :
    c.grants (word w tail) (word w my) (word w overcommit) desired ≤ desired ∧
      c.grants (word w tail) (word w my) (word w overcommit) desired ≤ tail+overcommit-my := by
  have hword : word w tail-(word w my-word w overcommit)=word w (tail+overcommit)-word w my := by
    rw [word_add,sub_sub_eq_add_sub]
  have hsame : circularLessThan (word w my-word w overcommit) (word w tail)=
      circularLessThan (word w my) (word w (tail+overcommit)) := by
    rw [←circularLessThan_zero,hword,circularLessThan_zero]
  cases c with
  | dequeue =>
    simp only [Call.grants,hsame]
    split
    · rename_i hless
      have hlt := lt_of_circularLessThan hw hnear hless
      omega
    · omega
  | dequeueBulk max =>
    simp only [Call.grants,hword,circularLessThan_zero]
    split
    · rename_i hless
      have hlt := lt_of_circularLessThan hw hnear hless
      have hvalue : (word w (tail+overcommit)-word w my).toNat ≤ tail+overcommit-my := by
        rw [word_sub hlt.le,word,BitVec.toNat_ofNat]
        exact Nat.mod_le _ _
      split <;> omega
    · omega

/-- The first test asks for no more than the call. -/
theorem wants_le_limit (c : Call) (tail optimistic overcommit : BitVec w) :
    c.wants tail optimistic overcommit ≤ c.limit := by
  cases c with
  | dequeue =>
    simp only [Call.wants,Call.limit]
    split <;> omega
  | dequeueBulk max =>
    simp only [Call.wants,Call.limit]
    split_ifs <;> omega

/-- The second test grants no more than was drawn. -/
theorem grants_le_desired (c : Call) (tail my overcommit : BitVec w) {desired : ℕ}
    (hd : 0 < desired) : c.grants tail my overcommit desired ≤ desired := by
  cases c with
  | dequeue =>
    simp only [Call.grants]
    split <;> omega
  | dequeueBulk max =>
    simp only [Call.grants]
    split_ifs <;> omega

end Decisions

section Totals

variable [Fintype ι]

/-- Elements which consumers may claim. -/
def claims (s : State ι α) : ℕ := total (fun _ p => Phase.claims p) s.phase

/-- What consumers still have to add to `dequeueOvercommit`. -/
def surplus (s : State ι α) : ℕ := total (fun _ p => Phase.surplus p) s.phase

/-- What consumers have added to `dequeueOptimisticCount` and not settled. -/
def unsettled (s : State ι α) : ℕ := total (fun _ p => Phase.unsettled p) s.phase

/-- Indices which are claimed and not moved out. -/
def held (s : State ι α) : Multiset ℕ := total (fun _ p => Phase.held p) s.phase

/-- What is known of a consumer: the overcommit it read is not newer than the
present one, and the numbers it drew are its own and still undecided. -/
def Fits (fate : ℕ → Fate) (s : State ι α) : Phase → Prop
  | .sawBoth _ _ overcommit => overcommit ≤ s.overcommit
  | .entering _ desired overcommit => overcommit ≤ s.overcommit ∧ 0 < desired
  | .counted _ desired overcommit my =>
    0 < desired ∧ my+desired ≤ s.optimistic ∧ Open fate my desired ∧ overcommit ≤ refused fate my
  | _ => True

/-- The numbers drawn by two consumers do not overlap. -/
def Apart : Phase → Phase → Prop
  | .counted _ desired _ my,.counted _ desired' _ my' => my+desired ≤ my' ∨ my'+desired' ≤ my
  | _,_ => True

/-- The invariant, with the fates of all numbers drawn so far. -/
structure Booked (fate : ℕ → Fate) (s : State ι α) : Prop where
  /-- Every consumer. -/
  fits : ∀ i,Fits fate s (s.phase i)
  /-- Any two consumers. -/
  apart : ∀ i j,i≠j → Apart (s.phase i) (s.phase j)
  /-- Numbers not drawn yet are undecided. -/
  unseen : ∀ k,s.optimistic ≤ k → fate k=.undecided
  /-- Refused numbers were refunded or are still to be. -/
  refunds : refused fate s.optimistic=s.overcommit+surplus s
  /-- Granted numbers have an index or are about to get one. -/
  grants : granted fate s.optimistic=s.head+claims s
  /-- A granted number was below the tail. -/
  judged : ∀ k < s.optimistic,fate k=.granted → k < s.tail+refused fate k
  /-- All numbers are accounted for. -/
  spent : s.optimistic=s.head+s.overcommit+unsettled s+surplus s+claims s
  /-- Every claimed index was delivered or is held, once. -/
  shared : (s.delivered.map Receipt.index : Multiset ℕ)+held s=Multiset.range s.head
  /-- Published elements are constructed. -/
  published : s.tail ≤ s.written.length
  /-- Whoever moved an index out got its element. -/
  delivered : ∀ r∈s.delivered,s.written[r.index]?=some r.element

omit [DecidableEq ι] in
/-- No more indices are claimed than elements were published. -/
theorem Booked.head_add_claims_le {fate : ℕ → Fate} {s : State ι α} (h : Booked fate s) :
    s.head+claims s ≤ s.tail := by
  rw [←h.grants]
  exact granted_le h.judged

omit [DecidableEq ι] in
/-- An index moved out was published. -/
theorem Booked.index_lt {fate : ℕ → Fate} {s : State ι α} (h : Booked fate s) {r : Receipt ι α}
    (hr : r∈s.delivered) : r.index < s.head := by
  have hmem : r.index∈(s.delivered.map Receipt.index : Multiset ℕ)+held s :=
    Multiset.mem_add.mpr (.inl (Multiset.mem_coe.mpr (List.mem_map_of_mem hr)))
  rw [h.shared] at hmem
  exact Multiset.mem_range.mp hmem

omit [DecidableEq ι] in
/-- A new sub-queue. -/
theorem booked_start : Booked (fun _ => .undecided) (.start : State ι α) := by
  have hclaims : claims (.start : State ι α)=0 := total_eq_zero _ _ fun _ => rfl
  have hsurplus : surplus (.start : State ι α)=0 := total_eq_zero _ _ fun _ => rfl
  have hunsettled : unsettled (.start : State ι α)=0 := total_eq_zero _ _ fun _ => rfl
  have hheld : held (.start : State ι α)=0 := total_eq_zero _ _ fun _ => rfl
  refine ⟨fun _ => trivial,fun _ _ _ => trivial,fun _ _ => rfl,?_,?_,nofun,?_,?_,le_rfl,nofun⟩
  · rw [hsurplus]
    rfl
  · rw [hclaims]
    rfl
  · rw [hclaims,hsurplus,hunsettled]
    rfl
  · rw [hheld]
    rfl

section Steps

variable {fate : ℕ → Fate} {s : State ι α} {i : ι} {p q : Phase}

/-- Moving a consumer changes the totals by its own difference. -/
theorem totals_goto (s : State ι α) (i : ι) (q : Phase) :
    claims (s.goto i q)+(s.phase i).claims=claims s+q.claims ∧
      surplus (s.goto i q)+(s.phase i).surplus=surplus s+q.surplus ∧
      unsettled (s.goto i q)+(s.phase i).unsettled=unsettled s+q.unsettled ∧
      held (s.goto i q)+(s.phase i).held=held s+q.held :=
  ⟨total_update _ _ _ _,total_update _ _ _ _,total_update _ _ _ _,total_update _ _ _ _⟩

omit [Fintype ι] in
/-- All consumers fit when the moved one does. -/
theorem fits_goto {s' : State ι α} (h : ∀ j,j≠i → Fits fate s' (s.phase j)) (hq : Fits fate s' q)
    (j : ι) : Fits fate s' (Function.update s.phase i q j) := by
  by_cases hj : j=i
  · subst hj
    rw [Function.update_self]
    exact hq
  · rw [Function.update_of_ne hj]
    exact h j hj

omit [DecidableEq ι] [Fintype ι] in
/-- Being apart does not depend on the order. -/
theorem Apart.symm (h : Apart p q) : Apart q p := by
  cases p with
  | counted c desired overcommit my =>
    cases q with
    | counted => exact Or.symm h
    | _ => trivial
  | _ => cases q <;> trivial

omit [Fintype ι] in
/-- All consumers are apart when the moved one is apart from the others. -/
theorem apart_goto (h : ∀ j k,j≠k → Apart (s.phase j) (s.phase k))
    (hq : ∀ j,j≠i → Apart q (s.phase j)) (j k : ι) (hjk : j≠k) :
    Apart (Function.update s.phase i q j) (Function.update s.phase i q k) := by
  by_cases hj : j=i
  · subst hj
    rw [Function.update_self,Function.update_of_ne hjk.symm]
    exact hq k hjk.symm
  · rw [Function.update_of_ne hj]
    by_cases hk : k=i
    · subst hk
      rw [Function.update_self]
      exact (hq j hjk).symm
    · rw [Function.update_of_ne hk]
      exact h j k hjk

/-- A step of a consumer which draws, settles, claims and delivers nothing. -/
structure Quiet (p q : Phase) : Prop where
  /-- Claims. -/
  claims : q.claims=p.claims
  /-- Surplus. -/
  surplus : q.surplus=p.surplus
  /-- Unsettled numbers. -/
  unsettled : q.unsettled=p.unsettled
  /-- Indices. -/
  held : q.held=p.held
  /-- It has no numbers of its own. -/
  apart : ∀ p',Apart q p'

/-- A quiet step keeps the books. -/
theorem booked_quiet (h : Booked fate s) (hp : s.phase i=p) (hquiet : Quiet p q)
    (hfits : Fits fate s q) : Booked fate (s.goto i q) := by
  obtain ⟨hclaims,hsurplus,hunsettled,hheld⟩ := totals_goto s i q
  rw [hp,hquiet.claims,Nat.add_right_cancel_iff] at hclaims
  rw [hp,hquiet.surplus,Nat.add_right_cancel_iff] at hsurplus
  rw [hp,hquiet.unsettled,Nat.add_right_cancel_iff] at hunsettled
  rw [hp,hquiet.held,add_left_inj] at hheld
  refine ⟨fits_goto (fun j _ => h.fits j) hfits,apart_goto h.apart fun j _ => hquiet.apart _,
    h.unseen,?_,?_,h.judged,?_,?_,h.published,h.delivered⟩
  · rw [hsurplus]
    exact h.refunds
  · rw [hclaims]
    exact h.grants
  · rw [hclaims,hsurplus,hunsettled]
    exact h.spent
  · rw [hheld]
    exact h.shared

omit [DecidableEq ι] in
/-- The producer changes elements behind the tail, or raises it. -/
theorem booked_produce (h : Booked fate s) {written : List α} {room seen tail : ℕ}
    (htail : s.tail ≤ tail) (hlen : tail ≤ written.length)
    (hsame : ∀ k < s.tail,written[k]?=s.written[k]?) :
    Booked fate {s with written := written,room := room,seen := seen,tail := tail} := by
  refine ⟨fun j => ?_,h.apart,h.unseen,h.refunds,h.grants,fun k hk hgranted => ?_,h.spent,h.shared,
    hlen,fun r hr => ?_⟩
  · have hj := h.fits j
    cases hp : s.phase j <;> rw [hp] at hj <;> exact hj
  · have hlt := h.judged k hk hgranted
    change k < tail+refused fate k
    omega
  · have hindex := h.index_lt hr
    have hle := h.head_add_claims_le
    change written[r.index]?=some r.element
    rw [hsame _ (by omega)]
    exact h.delivered r hr

/-- Drawing numbers. -/
theorem booked_count (h : Booked fate s) {c : Call} {desired overcommit : ℕ}
    (hp : s.phase i=.entering c desired overcommit) :
    Booked fate {s.goto i (.counted c desired overcommit s.optimistic) with
      optimistic := s.optimistic+desired} := by
  obtain ⟨hclaims,hsurplus,hunsettled,hheld⟩ :=
    totals_goto s i (.counted c desired overcommit s.optimistic)
  simp only [hp,Phase.claims,Phase.surplus,Phase.unsettled,Phase.held,add_zero]
    at hclaims hsurplus hunsettled hheld
  have hopen : Open fate s.optimistic desired := fun k hk _ => h.unseen k hk
  have hi := h.fits i
  rw [hp] at hi
  have hrefunds := h.refunds
  refine ⟨fits_goto (fun j _ => ?_) ⟨hi.2,le_rfl,hopen,?_⟩,apart_goto h.apart fun j _ => ?_,
    fun k hk => h.unseen k ?_,?_,?_,fun k hk hgranted => ?_,?_,?_,h.published,h.delivered⟩
  · have hj := h.fits j
    cases hpj : s.phase j <;> rw [hpj] at hj <;> try exact hj
    obtain ⟨hpos,hle,hopen',hover⟩ := hj
    exact ⟨hpos,by simp only; omega,hopen',hover⟩
  · have hle := hi.1
    omega
  · have hj := h.fits j
    cases hpj : s.phase j <;> rw [hpj] at hj <;> try trivial
    exact .inr hj.2.1
  · simp only at hk
    omega
  · change refused fate (s.optimistic+desired)=s.overcommit+surplus (s.goto i _)
    rw [refused_add hopen,hsurplus]
    exact h.refunds
  · change granted fate (s.optimistic+desired)=s.head+claims (s.goto i _)
    rw [granted_add hopen,hclaims]
    exact h.grants
  · refine h.judged k ?_ hgranted
    by_contra hge
    rw [h.unseen k (by omega)] at hgranted
    cases hgranted
  · have hspent := h.spent
    change s.optimistic+desired=s.head+s.overcommit+unsettled (s.goto i _)+surplus (s.goto i _)+
      claims (s.goto i _)
    rw [hclaims,hsurplus,hunsettled]
    omega
  · change (s.delivered.map Receipt.index : Multiset ℕ)+held (s.goto i _)=_
    rw [hheld]
    exact h.shared

omit [DecidableEq ι] [Fintype ι] in
/-- What a settled consumer claims and refunds. -/
theorem afterSettle_spec {desired actual : ℕ} (h : actual ≤ desired) :
    (afterSettle desired actual).claims=actual ∧
      (afterSettle desired actual).surplus=desired-actual ∧
      (afterSettle desired actual).unsettled=0 ∧ (afterSettle desired actual).held=0 ∧
      (∀ p,Apart (afterSettle desired actual) p) ∧
      ∀ (fate : ℕ → Fate) (s : State ι α),Fits fate s (afterSettle desired actual) := by
  unfold afterSettle
  split
  · exact ⟨rfl,rfl,rfl,rfl,fun _ => trivial,fun _ _ => trivial⟩
  · refine ⟨rfl,?_,rfl,rfl,fun _ => trivial,fun _ _ => trivial⟩
    change 0=desired-actual
    omega

omit [DecidableEq ι] [Fintype ι] in
/-- What a refunded consumer still claims. -/
theorem afterRefund_spec (actual : ℕ) :
    (afterRefund actual).claims=actual ∧ (afterRefund actual).surplus=0 ∧
      (afterRefund actual).unsettled=0 ∧ (afterRefund actual).held=0 ∧
      (∀ p,Apart (afterRefund actual) p) ∧
      ∀ (fate : ℕ → Fate) (s : State ι α),Fits fate s (afterRefund actual) := by
  unfold afterRefund
  split
  · rename_i hzero
    exact ⟨hzero.symm,rfl,rfl,rfl,fun _ => trivial,fun _ _ => trivial⟩
  · exact ⟨rfl,rfl,rfl,rfl,fun _ => trivial,fun _ _ => trivial⟩

omit [DecidableEq ι] [Fintype ι] in
/-- What a consumer still holds after it moved an element out. -/
theorem afterTake_spec (index left : ℕ) :
    (afterTake index left).claims=0 ∧ (afterTake index left).surplus=0 ∧
      (afterTake index left).unsettled=0 ∧
      (afterTake index left).held=(List.range' index left : List ℕ) ∧
      (∀ p,Apart (afterTake index left) p) ∧
      ∀ (fate : ℕ → Fate) (s : State ι α),Fits fate s (afterTake index left) := by
  unfold afterTake
  split
  · rename_i hzero
    subst hzero
    exact ⟨rfl,rfl,rfl,rfl,fun _ => trivial,fun _ _ => trivial⟩
  · exact ⟨rfl,rfl,rfl,rfl,fun _ => trivial,fun _ _ => trivial⟩

/-- Settling numbers: the first ones are granted, the others refused. -/
theorem booked_settle (h : Booked fate s) {c : Call} {desired overcommit my actual : ℕ}
    (hp : s.phase i=.counted c desired overcommit my) (hle : actual ≤ desired)
    (hactual : actual ≤ s.tail+overcommit-my) :
    Booked (judge fate my desired actual) (s.goto i (afterSettle desired actual)) := by
  obtain ⟨hclaims,hsurplus,hunsettled,hheld⟩ := totals_goto s i (afterSettle desired actual)
  obtain ⟨hqclaims,hqsurplus,hqunsettled,hqheld,hqapart,hqfits⟩ :=
    @afterSettle_spec ι α _ _ hle
  rw [hp,hqclaims] at hclaims
  rw [hp,hqsurplus] at hsurplus
  rw [hp,hqunsettled] at hunsettled
  rw [hp,hqheld] at hheld
  simp only [Phase.claims,Phase.surplus,Phase.unsettled,Phase.held,add_zero]
    at hclaims hsurplus hunsettled hheld
  have hi := h.fits i
  rw [hp] at hi
  obtain ⟨-,hdrawn,hopen,hover⟩ := hi
  have hmono : ∀ k,refused fate k ≤ refused (judge fate my desired actual) k := by
    intro k
    rw [refused_judge hopen hle]
    exact Nat.le_add_right _ _
  refine ⟨fits_goto (fun j hj => ?_) (hqfits _ _),apart_goto h.apart fun j _ => hqapart _,
    fun k hk => ?_,?_,?_,fun k hk hgranted => ?_,?_,?_,h.published,h.delivered⟩
  · have hfits := h.fits j
    have hapart := h.apart i j hj.symm
    rw [hp] at hapart
    cases hpj : s.phase j <;> rw [hpj] at hfits hapart <;> try exact hfits
    obtain ⟨hpos,hdrawn',hopen',hover'⟩ := hfits
    exact ⟨hpos,hdrawn',open_judge hopen' (Or.symm hapart),hover'.trans (hmono _)⟩
  · change s.optimistic ≤ k at hk
    rw [judge,if_neg (by omega)]
    exact h.unseen k hk
  · have hrefunds := h.refunds
    change refused _ s.optimistic=s.overcommit+surplus (s.goto i _)
    rw [refused_judge hopen hle,hsurplus]
    omega
  · have hgrants := h.grants
    change granted _ s.optimistic=s.head+claims (s.goto i _)
    rw [granted_judge hopen hle,hclaims]
    omega
  · -- A number granted now is below the tail because the overcommit which was
    -- read counts refused numbers before the consumer's own.
    have hmono' := hmono k
    rcases eq_granted_judge hgranted with hold|⟨hlow,hhigh⟩
    · have hlt := h.judged k hk hold
      change k < s.tail+refused _ k
      omega
    · have hbefore := refused_mono fate hlow
      change k < s.tail+refused _ k
      omega
  · have hspent := h.spent
    change s.optimistic=s.head+s.overcommit+unsettled (s.goto i _)+surplus (s.goto i _)+
      claims (s.goto i _)
    omega
  · change (s.delivered.map Receipt.index : Multiset ℕ)+held (s.goto i _)=_
    rw [hheld]
    exact h.shared

/-- Refunding refused numbers. -/
theorem booked_refund (h : Booked fate s) {excess actual : ℕ}
    (hp : s.phase i=.refunding excess actual) :
    Booked fate {s.goto i (afterRefund actual) with overcommit := s.overcommit+excess} := by
  obtain ⟨hclaims,hsurplus,hunsettled,hheld⟩ := totals_goto s i (afterRefund actual)
  obtain ⟨hqclaims,hqsurplus,hqunsettled,hqheld,hqapart,hqfits⟩ :=
    @afterRefund_spec ι α actual
  rw [hp,hqclaims] at hclaims
  rw [hp,hqsurplus] at hsurplus
  rw [hp,hqunsettled] at hunsettled
  rw [hp,hqheld] at hheld
  simp only [Phase.claims,Phase.surplus,Phase.unsettled,Phase.held,add_zero,
    Nat.add_right_cancel_iff] at hclaims hsurplus hunsettled hheld
  refine ⟨fits_goto (fun j _ => ?_) (hqfits _ _),apart_goto h.apart fun j _ => hqapart _,
    h.unseen,?_,?_,h.judged,?_,?_,h.published,h.delivered⟩
  · have hj := h.fits j
    cases hpj : s.phase j <;> rw [hpj] at hj <;> try exact hj
    · exact hj.trans (Nat.le_add_right _ _)
    · exact ⟨hj.1.trans (Nat.le_add_right _ _),hj.2⟩
  · have hrefunds := h.refunds
    change refused fate s.optimistic=s.overcommit+excess+surplus (s.goto i _)
    omega
  · change granted fate s.optimistic=s.head+claims (s.goto i _)
    rw [hclaims]
    exact h.grants
  · have hspent := h.spent
    change s.optimistic=s.head+(s.overcommit+excess)+unsettled (s.goto i _)+surplus (s.goto i _)+
      claims (s.goto i _)
    omega
  · change (s.delivered.map Receipt.index : Multiset ℕ)+held (s.goto i _)=_
    rw [hheld]
    exact h.shared

/-- Claiming indices. -/
theorem booked_claim (h : Booked fate s) {actual : ℕ} (hp : s.phase i=.claiming actual) :
    Booked fate {s.goto i (.taking s.head actual) with head := s.head+actual} := by
  obtain ⟨hclaims,hsurplus,hunsettled,hheld⟩ := totals_goto s i (.taking s.head actual)
  simp only [hp,Phase.claims,Phase.surplus,Phase.unsettled,Phase.held,add_zero]
    at hclaims hsurplus hunsettled hheld
  refine ⟨fits_goto (fun j _ => ?_) trivial,apart_goto h.apart fun j _ => trivial,
    h.unseen,?_,?_,h.judged,?_,?_,h.published,h.delivered⟩
  · have hj := h.fits j
    cases hpj : s.phase j <;> rw [hpj] at hj <;> exact hj
  · change refused fate s.optimistic=s.overcommit+surplus (s.goto i _)
    rw [hsurplus]
    exact h.refunds
  · have hgrants := h.grants
    change granted fate s.optimistic=s.head+actual+claims (s.goto i _)
    omega
  · have hspent := h.spent
    change s.optimistic=s.head+actual+s.overcommit+unsettled (s.goto i _)+surplus (s.goto i _)+
      claims (s.goto i _)
    omega
  · change (s.delivered.map Receipt.index : Multiset ℕ)+held (s.goto i _)=
      Multiset.range (s.head+actual)
    have happend := List.range'_append_1 (s := 0) (m := s.head) (n := actual)
    rw [Nat.zero_add] at happend
    rw [hheld,←add_assoc,h.shared,Multiset.range,Multiset.range,Multiset.coe_add,
      List.range_eq_range',List.range_eq_range',happend]

/-- Moving an element out. -/
theorem booked_take (h : Booked fate s) {index left : ℕ} {x : α}
    (hp : s.phase i=.taking index (left+1)) (hx : s.written[index]?=some x) :
    Booked fate {s.goto i (afterTake (index+1) left) with
      delivered := ⟨i,index,x⟩::s.delivered} := by
  obtain ⟨hclaims,hsurplus,hunsettled,hheld⟩ := totals_goto s i (afterTake (index+1) left)
  obtain ⟨hqclaims,hqsurplus,hqunsettled,hqheld,hqapart,hqfits⟩ :=
    @afterTake_spec ι α (index+1) left
  rw [hp,hqclaims] at hclaims
  rw [hp,hqsurplus] at hsurplus
  rw [hp,hqunsettled] at hunsettled
  rw [hp,hqheld] at hheld
  simp only [Phase.claims,Phase.surplus,Phase.unsettled,Phase.held,add_zero]
    at hclaims hsurplus hunsettled hheld
  refine ⟨fits_goto (fun j _ => ?_) (hqfits _ _),apart_goto h.apart fun j _ => hqapart _,
    h.unseen,?_,?_,h.judged,?_,?_,h.published,List.forall_mem_cons.mpr ⟨hx,h.delivered⟩⟩
  · have hj := h.fits j
    cases hpj : s.phase j <;> rw [hpj] at hj <;> exact hj
  · change refused fate s.optimistic=s.overcommit+surplus (s.goto i _)
    rw [hsurplus]
    exact h.refunds
  · change granted fate s.optimistic=s.head+claims (s.goto i _)
    rw [hclaims]
    exact h.grants
  · change s.optimistic=s.head+s.overcommit+unsettled (s.goto i _)+surplus (s.goto i _)+
      claims (s.goto i _)
    rw [hclaims,hsurplus,hunsettled]
    exact h.spent
  · change (↑(index::s.delivered.map Receipt.index) : Multiset ℕ)+held (s.goto i _)=_
    rw [List.range'_succ,←Multiset.cons_coe,Multiset.add_cons,←Multiset.cons_add,add_left_inj]
      at hheld
    rw [←Multiset.cons_coe,Multiset.cons_add,←Multiset.add_cons,hheld]
    exact h.shared

end Steps

omit [Fintype ι] in
/-- Everything an accepted step can do. -/
inductive Effect (w block : ℕ) (s : State ι α) : Act ι α → State ι α → Prop
  | reserves (head : ℕ) : s.seen ≤ head → head ≤ s.head →
      circularLessThan (word w head) (word w (s.room+block))=true →
      Effect w block s (.reserve head) {s with room := s.room+block,seen := head}
  | refused (head : ℕ) : s.seen ≤ head → head ≤ s.head →
      Effect w block s (.reserve head) {s with seen := head}
  | constructs (x : α) : s.written.length < s.room →
      Effect w block s (.construct x) {s with written := s.written++[x]}
  | publishes : Effect w block s .publish {s with tail := s.written.length}
  | abandons : Effect w block s .abandon {s with
      written := s.written.take s.tail
      room := (s.tail+block-1)/block*block}
  | moves (a : Act ι α) (i : ι) (p q : Phase) : s.phase i=p → Quiet p q →
      (∀ fate,Fits fate s p → Fits fate s q) → (p.Alive → q.Alive) →
      Effect w block s a (s.goto i q)
  | counts (i : ι) (c : Call) (desired overcommit : ℕ) :
      s.phase i=.entering c desired overcommit →
      Effect w block s (.count i) {s.goto i (.counted c desired overcommit s.optimistic) with
        optimistic := s.optimistic+desired}
  | settles (i : ι) (tail : ℕ) (c : Call) (desired overcommit my : ℕ) :
      s.phase i=.counted c desired overcommit my → tail ≤ s.tail →
      Effect w block s (.settle i tail) (s.goto i (afterSettle desired
        (c.grants (word w tail) (word w my) (word w overcommit) desired)))
  | refunds (i : ι) (surplus actual : ℕ) : s.phase i=.refunding surplus actual →
      Effect w block s (.refund i) {s.goto i (afterRefund actual) with
        overcommit := s.overcommit+surplus}
  | claims (i : ι) (actual : ℕ) : s.phase i=.claiming actual →
      Effect w block s (.claim i) {s.goto i (.taking s.head actual) with head := s.head+actual}
  | takes (i : ι) (index left : ℕ) (x : α) : s.phase i=.taking index (left+1) →
      s.written[index]?=some x →
      Effect w block s (.take i) {s.goto i (afterTake (index+1) left) with
        delivered := ⟨i,index,x⟩::s.delivered}

omit [Fintype ι] in
/-- The step function has no other effects. -/
theorem next_effect {w block : ℕ} {s s' : State ι α} {a : Act ι α} (h : next w block s a=some s') :
    Effect w block s a s' := by
  cases a with
  | reserve head =>
    simp only [next] at h
    split_ifs at h with hseen hless
    · cases h
      exact .reserves head hseen.1 hseen.2 hless
    · cases h
      exact .refused head hseen.1 hseen.2
  | construct x =>
    simp only [next] at h
    split_ifs at h with hroom
    cases h
    exact .constructs x hroom
  | publish =>
    cases h
    exact .publishes
  | abandon =>
    cases h
    exact .abandons
  | call i c =>
    simp only [next] at h
    split_ifs at h with hp
    cases h
    refine .moves _ i _ _ hp.1 ⟨rfl,rfl,rfl,rfl,fun _ => trivial⟩ (fun _ _ => trivial) fun _ => ?_
    cases c with
    | dequeue => exact .inr Nat.one_pos
    | dequeueBulk max => exact .inr (Nat.pos_of_ne_zero fun hmax => hp.2 (congrArg _ hmax))
  | loadTail i tail =>
    simp only [next] at h
    split at h
    · rename_i hp
      split_ifs at h
      cases h
      refine .moves _ i _ _ hp ⟨rfl,rfl,rfl,rfl,fun _ => trivial⟩ (fun _ _ => trivial)
        fun halive => ?_
      exact .inr (halive.resolve_left nofun)
    · cases h
  | loadOvercommit i overcommit =>
    simp only [next] at h
    split at h
    · rename_i hp
      split_ifs at h with hle
      cases h
      refine .moves _ i _ _ hp ⟨rfl,rfl,rfl,rfl,fun _ => trivial⟩ (fun _ _ => hle) fun halive => ?_
      exact .inr (halive.resolve_left nofun)
    · cases h
  | test i optimistic =>
    simp only [next] at h
    split at h
    · rename_i c tail overcommit hp
      split_ifs at h
      · cases h
        exact .moves _ i _ _ hp ⟨rfl,rfl,rfl,rfl,fun _ => trivial⟩ (fun _ _ => trivial)
          fun _ => .inl rfl
      · rename_i hdesired
        cases h
        exact .moves _ i _ _ hp ⟨rfl,rfl,rfl,rfl,fun _ => trivial⟩
          (fun _ hfits => ⟨hfits,Nat.pos_of_ne_zero hdesired⟩)
          fun _ => .inr (Nat.pos_of_ne_zero hdesired)
    · cases h
  | count i =>
    simp only [next] at h
    split at h
    · rename_i c desired overcommit hp
      cases h
      exact .counts i c desired overcommit hp
    · cases h
  | settle i tail =>
    simp only [next] at h
    split at h
    · rename_i c desired overcommit my hp
      split_ifs at h with htail
      cases h
      exact .settles i tail c desired overcommit my hp htail
    · cases h
  | refund i =>
    simp only [next] at h
    split at h
    · rename_i surplus actual hp
      cases h
      exact .refunds i surplus actual hp
    · cases h
  | claim i =>
    simp only [next] at h
    split at h
    · rename_i actual hp
      cases h
      exact .claims i actual hp
    · cases h
  | take i =>
    simp only [next] at h
    split at h
    · rename_i index left hp
      obtain ⟨x,hx,hs⟩ := Option.map_eq_some_iff.mp h
      cases hs
      exact .takes i index left x hp hx
    · cases h

omit [Fintype ι] in
/-- No consumer constructs or publishes anything. -/
theorem next_consumer {w block : ℕ} {s s' : State ι α} {a : Act ι α} {i : ι}
    (hconsumer : a.consumer=some i) (hn : next w block s a=some s') :
    s'.written=s.written ∧ s'.tail=s.tail := by
  cases next_effect hn with
  | reserves | refused | constructs | publishes | abandons => cases hconsumer
  | moves | counts | settles | refunds | claims | takes => exact ⟨rfl,rfl⟩

/-- What a step inside a consumer's call means to its caller. -/
structure Progress (s s' : State ι α) (i : ι) (q : Phase) : Prop where
  /-- Only this consumer moved. -/
  phase : s'.phase=Function.update s.phase i q
  /-- It was inside the call. -/
  inside : s.phase i≠.idle
  /-- The producer has no part in it. -/
  tail : s'.tail=s.tail
  /-- Nor in this. -/
  written : s'.written=s.written
  /-- What is moved out was within reach. -/
  reach : q.reach+s'.delivered.length ≤ (s.phase i).reach+s.delivered.length
  /-- At most one element is moved out. -/
  delivered : s'.delivered=s.delivered ∨ ∃ r,s'.delivered=r::s.delivered

omit [DecidableEq ι] [Fintype ι] in
/-- Nothing is put back. -/
theorem length_le_of_received {s s' : State ι α}
    (h : s'.delivered=s.delivered ∨ ∃ r,s'.delivered=r::s.delivered) :
    s.delivered.length ≤ s'.delivered.length := by
  rcases h with heq|⟨r,heq⟩
  · rw [heq]
  · rw [heq]
    exact Nat.le_succ _

/-- Every step of a consumer inside a call is of this kind. -/
theorem next_progress {w block : ℕ} {s s' : State ι α} {a : Act ι α} {i : ι} {fate : ℕ → Fate}
    (h : Booked fate s) (hconsumer : a.consumer=some i) (hinside : a.begins=false)
    (hn : next w block s a=some s') : ∃ q,Progress s s' i q := by
  have hfits := h.fits i
  cases a with
  | reserve => cases hconsumer
  | construct => cases hconsumer
  | publish => cases hconsumer
  | abandon => cases hconsumer
  | call => cases hinside
  | loadTail i' tail =>
    cases hconsumer
    simp only [next] at hn
    split at hn <;> try cases hn
    rename_i c hp
    split_ifs at hn
    cases hn
    exact ⟨_,rfl,by rw [hp]; nofun,rfl,rfl,by rw [hp]; exact le_rfl,.inl rfl⟩
  | loadOvercommit i' overcommit =>
    cases hconsumer
    simp only [next] at hn
    split at hn <;> try cases hn
    rename_i c tail hp
    split_ifs at hn
    cases hn
    exact ⟨_,rfl,by rw [hp]; nofun,rfl,rfl,by rw [hp]; exact le_rfl,.inl rfl⟩
  | test i' optimistic =>
    cases hconsumer
    simp only [next] at hn
    split at hn <;> try cases hn
    rename_i c tail overcommit hp
    have hwants := wants_le_limit c (word w tail) (word w optimistic) (word w overcommit)
    rw [Option.ite_none_right_eq_some] at hn
    cases hn.2
    refine ⟨_,rfl,by rw [hp]; nofun,rfl,rfl,?_,.inl rfl⟩
    rw [hp]
    refine Nat.add_le_add_right ?_ _
    split
    · exact Nat.zero_le _
    · exact hwants
  | count i' =>
    cases hconsumer
    simp only [next] at hn
    split at hn <;> cases hn
    rename_i c desired overcommit hp
    exact ⟨_,rfl,by rw [hp]; nofun,rfl,rfl,by rw [hp]; exact le_rfl,.inl rfl⟩
  | settle i' tail =>
    cases hconsumer
    simp only [next] at hn
    split at hn <;> try cases hn
    rename_i c desired overcommit my hp
    rw [hp] at hfits
    have hgrants := grants_le_desired c (word w tail) (word w my) (word w overcommit) hfits.1
    split_ifs at hn
    cases hn
    refine ⟨_,rfl,by rw [hp]; nofun,rfl,rfl,?_,.inl rfl⟩
    rw [hp]
    refine Nat.add_le_add_right ?_ _
    unfold afterSettle
    split
    · simp only [Phase.reach]
      omega
    · exact hgrants
  | refund i' =>
    cases hconsumer
    simp only [next] at hn
    split at hn <;> cases hn
    rename_i surplus actual hp
    refine ⟨_,rfl,by rw [hp]; nofun,rfl,rfl,?_,.inl rfl⟩
    rw [hp]
    refine Nat.add_le_add_right ?_ _
    unfold afterRefund
    split
    · exact Nat.zero_le _
    · exact Nat.le_add_left _ _
  | claim i' =>
    cases hconsumer
    simp only [next] at hn
    split at hn <;> cases hn
    rename_i actual hp
    exact ⟨_,rfl,by rw [hp]; nofun,rfl,rfl,by rw [hp]; exact le_rfl,.inl rfl⟩
  | take i' =>
    cases hconsumer
    simp only [next] at hn
    split at hn <;> try cases hn
    rename_i index left hp
    obtain ⟨x,hx,hs⟩ := Option.map_eq_some_iff.mp hn
    cases hs
    refine ⟨_,rfl,by rw [hp]; nofun,rfl,rfl,?_,.inr ⟨_,rfl⟩⟩
    have hreach : (afterTake (index+1) left).reach=left := by
      unfold afterTake
      split
      · rename_i hzero
        exact hzero.symm
      · rfl
    rw [hp,hreach]
    simp only [List.length_cons,Phase.reach]
    omega

/-- How far ahead of the tail a consumer sees itself when it decides: its number
less the overcommit and the tail which it has read. -/
def ahead (s : State ι α) : Act ι α → ℕ
  | .settle i tail =>
    match s.phase i with
    | .counted _ _ overcommit my => my-(tail+overcommit)
    | _ => 0
  | _ => 0

/-- The values on which a consumer decides are not older than half the range of
a word. -/
def Recent (w : ℕ) (s : State ι α) (a : Act ι α) : Prop := ahead s a ≤ half w

instance (w : ℕ) (s : State ι α) (a : Act ι α) : Decidable (Recent w s a) :=
  inferInstanceAs (Decidable (ahead s a ≤ half w))

/-- Every step keeps the books. -/
theorem booked_step {w block : ℕ} (hw : 0 < w) {s s' : State ι α} {a : Act ι α} {fate : ℕ → Fate}
    (h : Booked fate s) (hrecent : Recent w s a) (hn : next w block s a=some s') :
    ∃ fate',Booked fate' s' := by
  cases next_effect hn with
  | reserves head _ _ _ => exact ⟨fate,booked_produce h le_rfl h.published fun _ _ => rfl⟩
  | refused head _ _ => exact ⟨fate,booked_produce h le_rfl h.published fun _ _ => rfl⟩
  | constructs x _ =>
    have hlen := h.published
    refine ⟨fate,booked_produce h le_rfl ?_ fun k hk => ?_⟩
    · rw [List.length_append]
      omega
    · exact List.getElem?_append_left (by omega)
  | publishes => exact ⟨fate,booked_produce h h.published le_rfl fun _ _ => rfl⟩
  | abandons =>
    refine ⟨fate,booked_produce h le_rfl ?_ fun k hk => ?_⟩
    · rw [List.length_take]
      exact le_min le_rfl h.published
    · exact List.getElem?_take_of_lt hk
  | moves a i p q hp hquiet hfits _ =>
    have hi := h.fits i
    rw [hp] at hi
    exact ⟨fate,booked_quiet h hp hquiet (hfits fate hi)⟩
  | counts i c desired overcommit hp => exact ⟨fate,booked_count h hp⟩
  | settles i tail c desired overcommit my hp htail =>
    have hi := h.fits i
    rw [hp] at hi
    have hnear : my ≤ tail+overcommit+half w := by
      simp only [Recent,ahead,hp] at hrecent
      omega
    obtain ⟨hdesired,hactual⟩ := grants_le hw c hi.1 hnear
    exact ⟨_,booked_settle h hp hdesired (by omega)⟩
  | refunds i excess actual hp => exact ⟨fate,booked_refund h hp⟩
  | claims i actual hp => exact ⟨fate,booked_claim h hp⟩
  | takes i index left x hp hx => exact ⟨fate,booked_take h hp hx⟩

end Totals

end FastEventSystem.SubqueueClaims
