import FastEventSystem.GuardedRuns
import FastEventSystem.PartyTotals
import FastEventSystem.LinkedNodes

/-!
# Where blocks come from and where they go

All sub-queues share one supply of blocks. `requisition_block` takes a block from
the initial pool, else from the free list, else it allocates one; blocks whose
elements are all gone are given back with `add`. The free list is a stack linked
by `freeListNext`, and nothing locks it. `try_get` would be wrong without
`freeListRefs`: between its load of the next block and its exchange of the head,
the first block could be taken, given back and linked to another one. So it
raises the count of the first block before it reads on, and whoever gives a block
back while others still count on it only marks it, with the top bit of the same
word; the last of them puts it on the list.

Blocks which were given back are on the list, marked, or in the hands of exactly
one thread which is about to link them. The counts are words of 32 bits, and all
loads of the head may be outdated.
-/

namespace FastEventSystem.BlockFreeList

open GuardedRuns PartyTotals LinkedNodes

/-- A block. -/
inductive Block where
  /-- A block of the initial pool. -/
  | pool (index : ℕ)
  /-- An allocated block. -/
  | heap (serial : ℕ)
  deriving DecidableEq

/-- Where a thread stands. Inside `add_knowing_refcount_is_zero` the last argument
says where it goes on: nowhere, or in the loop of `try_get` with this head. -/
inductive Phase where
  /-- In no call. -/
  | outside
  /-- In `requisition_block`, before the load of `initialBlockPoolIndex`. -/
  | checking
  /-- Before it adds to `initialBlockPoolIndex`. -/
  | drawing
  /-- In `try_get`, before a load of `freeListHead`. -/
  | seeking
  /-- Before the load of `freeListRefs` of this head. -/
  | looking (head : Block)
  /-- Before the test of the loaded count and its exchange. -/
  | counting (head : Block) (refs : ℕ)
  /-- Counted, before the load of `freeListNext`. -/
  | reading (head : Block)
  /-- Before the exchange of `freeListHead`. -/
  | popping (head : Block) (next : Option Block)
  /-- The exchange succeeded; before it subtracts both counts. -/
  | leaving (head : Block)
  /-- It failed and loaded another head; before it subtracts its own count. -/
  | dropping (prevHead : Block) (head : Option Block)
  /-- `try_get` found nothing. -/
  | allocating
  /-- In `add`, before it sets the mark. -/
  | adding (node : Block)
  /-- In `add_knowing_refcount_is_zero`, before the load of `freeListHead`. -/
  | loading (node : Block) (back : Option (Option Block))
  /-- Before the store of `freeListNext`. -/
  | linking (node : Block) (head : Option Block) (back : Option (Option Block))
  /-- Before the store of `freeListRefs`. -/
  | opening (node : Block) (head : Option Block) (back : Option (Option Block))
  /-- Before the exchange of `freeListHead`. -/
  | pushing (node : Block) (head : Option Block) (back : Option (Option Block))
  /-- It failed and loaded another head; before it sets the mark again. -/
  | retracting (node : Block) (head : Option Block) (back : Option (Option Block))
  deriving DecidableEq

/-- The loop of `try_get` with a head. -/
def again : Option Block → Phase
  | none => .allocating
  | some head => .looking head

/-- After `add_knowing_refcount_is_zero`. -/
def resume : Option (Option Block) → Phase
  | none => .outside
  | some head => again head

/-- `SHOULD_BE_ON_FREELIST`. The other bits are `REFS_MASK`. -/
def shouldBeOnFreeList : ℕ := 2147483648

/-- `fetch_add` on a word of 32 bits. -/
def fetchAdd (refs n : ℕ) : ℕ := (refs+n)%4294967296

/-- `fetch_sub`. -/
def fetchSub (refs n : ℕ) : ℕ := (refs+(4294967296-n))%4294967296

/-- An addition which does not overflow. -/
theorem fetchAdd_eq {refs n : ℕ} (h : refs+n < 4294967296) : fetchAdd refs n=refs+n := by
  rw [fetchAdd,Nat.mod_eq_of_lt h]

/-- A subtraction which does not either. -/
theorem fetchSub_eq {refs n : ℕ} (hn : n ≤ refs) (h : refs < 4294967296) :
    fetchSub refs n=refs-n := by
  unfold fetchSub
  omega

/-- The supply, the threads and the histories. -/
structure State (ι : Type*) where
  /-- The field `freeListHead`. -/
  head : Option Block
  /-- History of its earlier values. -/
  past : List (Option Block)
  /-- The field `freeListRefs` of every block. -/
  refs : Block → ℕ
  /-- The field `freeListNext`. -/
  next : Block → Option Block
  /-- The field `initialBlockPoolIndex`. -/
  poolIndex : ℕ
  /-- History: how many blocks were allocated. -/
  allocated : ℕ
  /-- History: how often a block was handed out and not given back. -/
  out : Block → ℕ
  /-- Every thread's position. -/
  phase : ι → Phase

variable {ι : Type*}

/-- Nothing handed out, and nobody in a call. -/
def State.start : State ι :=
  ⟨none,[],fun _ => 0,fun _ => none,0,0,fun _ => 0,fun _ => .outside⟩

/-- One step of a thread. -/
inductive Act (ι : Type*) where
  /-- Begin `requisition_block`. -/
  | requisition (i : ι)
  /-- `initialBlockPoolIndex.load`, which returns this value. -/
  | loadIndex (i : ι) (index : ℕ)
  /-- `initialBlockPoolIndex.fetch_add`. -/
  | draw (i : ι)
  /-- `freeListHead.load`, which returns this value. -/
  | loadHead (i : ι) (head : Option Block)
  /-- `freeListRefs.load`, which returns this value. -/
  | loadRefs (i : ι) (refs : ℕ)
  /-- The test of the count and the exchange which raises it. -/
  | acquire (i : ι)
  /-- `freeListNext.load`. -/
  | loadNext (i : ι)
  /-- The exchange of `freeListHead` in `try_get` succeeds. -/
  | pop (i : ι)
  /-- It fails and loads this value. -/
  | popFails (i : ι) (head : Option Block)
  /-- `fetch_sub(2)`, and `try_get` returns the block. -/
  | leave (i : ι)
  /-- `fetch_sub(1)`. -/
  | drop (i : ι)
  /-- `create<Block>`. -/
  | create (i : ι)
  /-- No block is allocated: return null. -/
  | giveUp (i : ι)
  /-- Begin `add` with a block which was handed out. -/
  | add (i : ι) (node : Block)
  /-- `fetch_add(SHOULD_BE_ON_FREELIST)`. -/
  | mark (i : ι)
  /-- `freeListNext.store`. -/
  | link (i : ι)
  /-- `freeListRefs.store(1)`. -/
  | opens (i : ι)
  /-- The exchange of `freeListHead` in `add_knowing_refcount_is_zero` succeeds. -/
  | push (i : ι)
  /-- It fails and loads this value. -/
  | pushFails (i : ι) (head : Option Block)
  /-- `fetch_add(SHOULD_BE_ON_FREELIST - 1)`. -/
  | retract (i : ι)

/-- The value was in `freeListHead` at some time. -/
def State.Seen (s : State ι) (v : Option Block) : Prop := v=s.head ∨ v∈s.past

instance (s : State ι) (v : Option Block) : Decidable (s.Seen v) :=
  inferInstanceAs (Decidable (_∨_))

/-- Write `freeListHead`. -/
def State.store (s : State ι) (v : Option Block) : State ι :=
  {s with head := v,past := s.head::s.past}

/-- Write `freeListRefs` of a block. -/
def State.count (s : State ι) (n : Block) (refs : ℕ) : State ι :=
  {s with refs := Function.update s.refs n refs}

variable [DecidableEq ι]

/-- Move one thread. -/
def State.goto (s : State ι) (i : ι) (p : Phase) : State ι :=
  {s with phase := Function.update s.phase i p}

/-- Hand out a block and leave the call. -/
def State.give (s : State ι) (i : ι) (n : Block) : State ι :=
  {s.goto i .outside with out := Function.update s.out n (s.out n+1)}

/-- Perform one step; so many blocks are in the initial pool. -/
def next (initialBlockPoolSize : ℕ) (s : State ι) : Act ι → Option (State ι)
  | .requisition i => if s.phase i=.outside then some (s.goto i .checking) else none
  | .loadIndex i index =>
    match s.phase i with
    | .checking =>
      if index ≤ s.poolIndex then
        some (s.goto i (if initialBlockPoolSize ≤ index then .seeking else .drawing))
      else none
    | _ => none
  | .draw i =>
    match s.phase i with
    | .drawing =>
      if s.poolIndex < initialBlockPoolSize then
        some {s.give i (.pool s.poolIndex) with poolIndex := s.poolIndex+1}
      else some {s.goto i .seeking with poolIndex := s.poolIndex+1}
    | _ => none
  | .loadHead i v =>
    if s.Seen v then
      match s.phase i with
      | .seeking => some (s.goto i (again v))
      | .loading node back => some (s.goto i (.linking node v back))
      | _ => none
    else none
  | .loadRefs i refs =>
    match s.phase i with
    | .looking head => some (s.goto i (.counting head refs))
    | _ => none
  | .acquire i =>
    match s.phase i with
    | .counting head refs =>
      if refs%shouldBeOnFreeList=0 ∨ s.refs head≠refs then some (s.goto i .seeking)
      else some ((s.count head (fetchAdd refs 1)).goto i (.reading head))
    | _ => none
  | .loadNext i =>
    match s.phase i with
    | .reading head => some (s.goto i (.popping head (s.next head)))
    | _ => none
  | .pop i =>
    match s.phase i with
    | .popping head next =>
      if s.head=some head then some ((s.store next).goto i (.leaving head)) else none
    | _ => none
  | .popFails i v =>
    if s.Seen v then
      match s.phase i with
      | .popping head _ => if v≠some head then some (s.goto i (.dropping head v)) else none
      | _ => none
    else none
  | .leave i =>
    match s.phase i with
    | .leaving head => some ((s.count head (fetchSub (s.refs head) 2)).give i head)
    | _ => none
  | .drop i =>
    match s.phase i with
    | .dropping prevHead head =>
      some ((s.count prevHead (fetchSub (s.refs prevHead) 1)).goto i
        (if s.refs prevHead=shouldBeOnFreeList+1 then .loading prevHead (some head)
        else again head))
    | _ => none
  | .create i =>
    match s.phase i with
    | .allocating => some {s.give i (.heap s.allocated) with allocated := s.allocated+1}
    | _ => none
  | .giveUp i =>
    match s.phase i with
    | .allocating => some (s.goto i .outside)
    | _ => none
  | .add i node =>
    if s.phase i=.outside ∧ 0 < s.out node then
      some {s.goto i (.adding node) with out := Function.update s.out node (s.out node-1)}
    else none
  | .mark i =>
    match s.phase i with
    | .adding node =>
      some ((s.count node (fetchAdd (s.refs node) shouldBeOnFreeList)).goto i
        (if s.refs node=0 then .loading node none else .outside))
    | _ => none
  | .link i =>
    match s.phase i with
    | .linking node head back =>
      some {s.goto i (.opening node head back) with next := Function.update s.next node head}
    | _ => none
  | .opens i =>
    match s.phase i with
    | .opening node head back => some ((s.count node 1).goto i (.pushing node head back))
    | _ => none
  | .push i =>
    match s.phase i with
    | .pushing node head back =>
      if s.head=head then some ((s.store (some node)).goto i (resume back)) else none
    | _ => none
  | .pushFails i v =>
    if s.Seen v then
      match s.phase i with
      | .pushing node head back =>
        if v≠head then some (s.goto i (.retracting node v back)) else none
      | _ => none
    else none
  | .retract i =>
    match s.phase i with
    | .retracting node head back =>
      some ((s.count node (fetchAdd (s.refs node) (shouldBeOnFreeList-1))).goto i
        (if s.refs node=1 then .linking node head back else resume back))
    | _ => none

/-- The block which nobody but this thread is in charge of. -/
def Phase.charge : Phase → Option Block
  | .leaving node | .adding node | .loading node _ | .linking node _ _ | .opening node _ _
  | .pushing node _ _ | .retracting node _ _ => some node
  | _ => none

/-- What its word is above the number of threads which count on it. -/
def Phase.base : Phase → ℕ
  | .leaving _ => 2
  | .loading _ _ | .linking _ _ _ | .opening _ _ _ => shouldBeOnFreeList
  | .pushing _ _ _ | .retracting _ _ _ => 1
  | _ => 0

/-- No other thread may count on it meanwhile. -/
def Phase.still : Phase → Bool
  | .loading _ _ | .linking _ _ _ | .opening _ _ _ => true
  | _ => false

/-- Whether the thread counts on a block. -/
def Phase.holds (n : Block) : Phase → ℕ
  | .reading head | .popping head _ | .dropping head _ => if head=n then 1 else 0
  | _ => 0

/-- The thread knows the successor of a block. -/
def Phase.Linked (next : Block → Option Block) : Phase → Prop
  | .popping head v => next head=v
  | .opening node v _ | .pushing node v _ => next node=v
  | _ => True

/-- Where a block is. -/
inductive Place (ι : Type*) where
  /-- It does not exist yet. -/
  | absent
  /-- It was handed out. -/
  | out
  /-- It is on the free list. -/
  | listed
  /-- It is marked: the last thread which counts on it puts it on the list. -/
  | marked
  /-- This thread is in charge of it. -/
  | charged (i : ι)

/-- What its word is above the number of threads which count on it. -/
def Place.base (phase : ι → Phase) : Place ι → ℕ
  | .listed => 1
  | .marked => shouldBeOnFreeList
  | .charged i => (phase i).base
  | _ => 0

/-- How often a block there was handed out and not given back. -/
def Place.handed : Place ι → ℕ
  | .out => 1
  | _ => 0

/-- The block exists. -/
def created (initialBlockPoolSize : ℕ) (s : State ι) : Block → Prop
  | .pool index => index < s.poolIndex ∧ index < initialBlockPoolSize
  | .heap serial => serial < s.allocated

section Totals

variable [Fintype ι]

/-- How many threads count on a block. -/
def held (s : State ι) (n : Block) : ℕ := total (fun _ p => Phase.holds n p) s.phase

omit [DecidableEq ι] in
/-- No more than there are. -/
theorem held_le_card (s : State ι) (n : Block) : held s n ≤ Fintype.card ι := by
  have hone : ∀ i∈Finset.univ,Phase.holds n (s.phase i) ≤ 1 := by
    intro i _
    cases s.phase i <;> simp only [Phase.holds] <;> try omega
    all_goals split <;> omega
  rw [←Finset.card_univ,Finset.card_eq_sum_ones]
  exact Finset.sum_le_sum hone

omit [DecidableEq ι] in
/-- A thread which counts on a block is one of them. -/
theorem holds_le_held (s : State ι) (n : Block) (i : ι) : (s.phase i).holds n ≤ held s n :=
  Finset.single_le_sum (f := fun j => Phase.holds n (s.phase j)) (fun _ _ => Nat.zero_le _)
    (Finset.mem_univ i)

/-- One thread has moved. -/
theorem held_update {s s' : State ι} {i : ι} {q : Phase}
    (hphase : s'.phase=Function.update s.phase i q) (n : Block) :
    held s' n+(s.phase i).holds n=held s n+q.holds n := by
  have hupdate := total_update (fun _ p => Phase.holds n p) s.phase i q
  rw [←hphase] at hupdate
  exact hupdate

/-- The invariant, with the place of every block and the blocks on the list. -/
structure Sound (initialBlockPoolSize : ℕ) (place : Block → Place ι) (list : List Block)
    (s : State ι) : Prop where
  /-- The list is linked. -/
  chain : Chain s.next s.head list
  /-- No block is on it twice. -/
  nodup : list.Nodup
  /-- The listed blocks are on it. -/
  listed : ∀ n,n∈list ↔ place n=.listed
  /-- Blocks handed out. -/
  out : ∀ n,s.out n=(place n).handed
  /-- Blocks which do not exist. -/
  absent : ∀ n,place n=.absent ↔ ¬created initialBlockPoolSize s n
  /-- Blocks which a thread is in charge of. -/
  charged : ∀ i n,place n=.charged i ↔ (s.phase i).charge=some n
  /-- The word of every block. -/
  refs : ∀ n,s.refs n=(place n).base s.phase+held s n
  /-- Somebody counts on a marked block. -/
  marked : ∀ n,place n=.marked → 0 < held s n
  /-- Nobody counts on a block which is being linked. -/
  still : ∀ i n,(s.phase i).charge=some n → (s.phase i).still=true → held s n=0
  /-- What threads know of successors is so. -/
  linked : ∀ i,(s.phase i).Linked s.next

section Changes

variable {initialBlockPoolSize : ℕ} {place : Block → Place ι} {list : List Block} {s s' : State ι}
  {i : ι} {m : Block} {q : Phase}

omit [DecidableEq ι] [Fintype ι] in
/-- The base of a place depends on the thread in charge only. -/
theorem base_congr {phase phase' : ι → Phase} (pl : Place ι)
    (h : ∀ j,pl=.charged j → (phase' j).base=(phase j).base) : pl.base phase'=pl.base phase := by
  cases pl with
  | charged j => exact h j rfl
  | _ => rfl

/-- What holds of a step which changes the counts on one block at most, with the
thread which counts. -/
structure Counting (initialBlockPoolSize : ℕ) (place : Block → Place ι) (s s' : State ι) (i : ι)
    (q : Phase) (m : Block) : Prop where
  /-- The thread goes on. -/
  phase : s'.phase=Function.update s.phase i q
  /-- The head stays. -/
  head : s'.head=s.head
  /-- So do the links. -/
  next : s'.next=s.next
  /-- No block changes hands. -/
  out : s'.out=s.out
  /-- No block is new. -/
  created : ∀ n,created initialBlockPoolSize s' n ↔ created initialBlockPoolSize s n
  /-- The thread has the same block in charge. -/
  charge : q.charge=(s.phase i).charge
  /-- The word of that block owes as much to it. -/
  base : q.base=(s.phase i).base
  /-- It links the block, or does not, as before. -/
  still : q.still=(s.phase i).still
  /-- Other words are as they were. -/
  others : ∀ n,n≠m → s'.refs n=s.refs n ∧ q.holds n=(s.phase i).holds n
  /-- The word of the block follows the counts of the thread. -/
  word : s'.refs m+(s.phase i).holds m=s.refs m+q.holds m
  /-- A marked block is still counted on. -/
  marked : place m=.marked → 0 < held s' m
  /-- Nobody counts on a block which is being linked. -/
  alone : ∀ j,(s.phase j).charge=some m → (s.phase j).still=true → held s' m=0
  /-- The thread knows the link it relies on. -/
  linked : q.Linked s.next

/-- A thread moves on with the same block in charge. It may begin or cease to
count on one block, whose word changes accordingly. -/
theorem sound_count (h : Sound initialBlockPoolSize place list s)
    (hcount : Counting initialBlockPoolSize place s s' i q m) :
    Sound initialBlockPoolSize place list s' := by
  obtain ⟨hphase,hhead,hnext,hout,hcreated,hcharge,hbase,hstill,hothers,hword,hmarked,halone,
    hlinked⟩ := hcount
  have hself : s'.phase i=q := by rw [hphase,Function.update_self]
  have hother : ∀ j,j≠i → s'.phase j=s.phase j := by
    intro j hj
    rw [hphase,Function.update_of_ne hj]
  have hsame : ∀ j,(s'.phase j).charge=(s.phase j).charge ∧ (s'.phase j).base=(s.phase j).base ∧
      (s'.phase j).still=(s.phase j).still := by
    intro j
    by_cases hj : j=i
    · rw [hj,hself]
      exact ⟨hcharge,hbase,hstill⟩
    · rw [hother j hj]
      exact ⟨rfl,rfl,rfl⟩
  have hheld : ∀ n,n≠m → held s' n=held s n := by
    intro n hn
    have hupdate := held_update hphase n
    rw [(hothers n hn).2] at hupdate
    omega
  refine ⟨?_,h.nodup,h.listed,?_,?_,?_,?_,?_,?_,?_⟩
  · rw [hhead,hnext]
    exact h.chain
  · rw [hout]
    exact h.out
  · intro n
    rw [hcreated n]
    exact h.absent n
  · intro j n
    rw [(hsame j).1]
    exact h.charged j n
  · intro n
    have hold := h.refs n
    rw [base_congr (place n) fun j _ => (hsame j).2.1]
    by_cases hn : n=m
    · subst hn
      have hupdate := held_update hphase n
      omega
    · rw [(hothers n hn).1,hheld n hn]
      exact hold
  · intro n hn
    by_cases hm : n=m
    · rw [hm] at hn ⊢
      exact hmarked hn
    · rw [hheld n hm]
      exact h.marked n hn
  · intro j n hj hstillj
    rw [(hsame j).1] at hj
    rw [(hsame j).2.2] at hstillj
    by_cases hn : n=m
    · rw [hn] at hj ⊢
      exact halone j hj hstillj
    · rw [hheld n hn]
      exact h.still j n hj hstillj
  · intro j
    by_cases hj : j=i
    · rw [hj,hself,hnext]
      exact hlinked
    · rw [hother j hj,hnext]
      exact h.linked j

/-- What holds of a step which changes no word and no place. -/
structure Plain (initialBlockPoolSize : ℕ) (s s' : State ι) (i : ι) (q : Phase) : Prop where
  /-- The thread goes on. -/
  phase : s'.phase=Function.update s.phase i q
  /-- The head stays. -/
  head : s'.head=s.head
  /-- So do the words. -/
  refs : s'.refs=s.refs
  /-- And the links. -/
  next : s'.next=s.next
  /-- No block changes hands. -/
  out : s'.out=s.out
  /-- No block is new. -/
  created : ∀ n,created initialBlockPoolSize s' n ↔ created initialBlockPoolSize s n
  /-- The thread has the same block in charge. -/
  charge : q.charge=(s.phase i).charge
  /-- The word of that block owes as much to it. -/
  base : q.base=(s.phase i).base
  /-- It links the block, or does not, as before. -/
  still : q.still=(s.phase i).still
  /-- It counts on the same blocks. -/
  holds : ∀ n,q.holds n=(s.phase i).holds n
  /-- It knows the link it relies on. -/
  linked : q.Linked s.next

/-- A thread moves on, and nothing else changes. -/
theorem sound_plain (h : Sound initialBlockPoolSize place list s)
    (hplain : Plain initialBlockPoolSize s s' i q) : Sound initialBlockPoolSize place list s' := by
  obtain ⟨hphase,hhead,hrefs,hnext,hout,hcreated,hcharge,hbase,hstill,hholds,hlinked⟩ := hplain
  have hheld : ∀ n,held s' n=held s n := by
    intro n
    have hupdate := held_update hphase n
    rw [hholds n] at hupdate
    omega
  refine sound_count (m := .heap 0) h {
      phase := hphase
      head := hhead
      next := hnext
      out := hout
      created := hcreated
      charge := hcharge
      base := hbase
      still := hstill
      others := fun n _ => ⟨by rw [hrefs],hholds n⟩
      word := by rw [hrefs,hholds]
      marked := ?_
      alone := ?_
      linked := hlinked}
  · intro hm
    rw [hheld]
    exact h.marked _ hm
  · intro j hj hstillj
    rw [hheld]
    exact h.still j _ hj hstillj

/-- What holds of a step which moves one block to another place, with the thread
which moves it. -/
structure Moving (initialBlockPoolSize : ℕ) (place : Block → Place ι) (s s' : State ι) (i : ι)
    (q : Phase) (m : Block) (pl : Place ι) (list' : List Block) : Prop where
  /-- The thread goes on. -/
  phase : s'.phase=Function.update s.phase i q
  /-- It had this block in charge, or none. -/
  before : (s.phase i).charge=none ∨ (s.phase i).charge=some m
  /-- The block was in its charge, or in nobody's. -/
  moved : place m=.charged i ∨ ∀ j,place m≠.charged j
  /-- It has the block in charge now, or none. -/
  after : q.charge=some m ∧ pl=.charged i ∨ q.charge=none ∧ ∀ j,pl≠.charged j
  /-- Other words are as they were. -/
  others : ∀ n,n≠m → s'.refs n=s.refs n ∧ q.holds n=(s.phase i).holds n
  /-- The word of the block. -/
  word : s'.refs m=pl.base s'.phase+held s' m
  /-- A marked block is still counted on. -/
  marked : pl=.marked → 0 < held s' m
  /-- Nobody counts on a block which is being linked. -/
  still : q.still=true → held s' m=0
  /-- The thread knows the link it relies on. -/
  linked : q.Linked s'.next
  /-- So do the others. -/
  next : ∀ j,j≠i → (s.phase j).Linked s'.next
  /-- The list behind the head. -/
  chain : Chain s'.next s'.head list'
  /-- No block is listed twice. -/
  nodup : list'.Nodup
  /-- The places of the listed blocks. -/
  listed : ∀ n,n∈list' ↔ Function.update place m pl n=.listed
  /-- How often each block is handed out. -/
  out : ∀ n,s'.out n=(Function.update place m pl n).handed
  /-- The blocks there are. -/
  absent : ∀ n,Function.update place m pl n=.absent ↔ ¬created initialBlockPoolSize s' n

/-- The place of one block changes. It was in the charge of this thread or of
none, and so it is afterwards. -/
theorem sound_change {pl : Place ι} {list' : List Block}
    (h : Sound initialBlockPoolSize place list s)
    (hmove : Moving initialBlockPoolSize place s s' i q m pl list') :
    Sound initialBlockPoolSize (Function.update place m pl) list' s' := by
  obtain ⟨hphase,hbefore,hplace,hafter,hothers,hword,hmarked,hstill,hlinked,hnext,hchain,hnodup,
    hlisted,hout,habsent⟩ := hmove
  have hself : s'.phase i=q := by rw [hphase,Function.update_self]
  have hother : ∀ j,j≠i → s'.phase j=s.phase j := by
    intro j hj
    rw [hphase,Function.update_of_ne hj]
  have hheld : ∀ n,n≠m → held s' n=held s n := by
    intro n hn
    have hupdate := held_update hphase n
    rw [(hothers n hn).2] at hupdate
    omega
  -- no other thread is in charge of this block, before and after
  have hfree : ∀ j,j≠i → (s.phase j).charge≠some m := by
    intro j hj hcharge
    have hm := (h.charged j m).mpr hcharge
    rcases hplace with hi|hnone
    · rw [hi] at hm
      cases hm
      exact hj rfl
    · exact hnone j hm
  -- and this thread is in charge of no other block
  have hmine : ∀ n,n≠m → (s.phase i).charge≠some n ∧ q.charge≠some n := by
    intro n hn
    constructor
    · rcases hbefore with hc|hc <;> rw [hc] <;> intro heq <;> cases heq
      exact hn rfl
    · rcases hafter with hc|hc <;> rw [hc.1] <;> intro heq <;> cases heq
      exact hn rfl
  refine ⟨hchain,hnodup,hlisted,hout,habsent,?_,?_,?_,?_,?_⟩
  · intro j n
    by_cases hn : n=m
    · rw [hn,Function.update_self]
      by_cases hj : j=i
      · rw [hj,hself]
        rcases hafter with hc|hc
        · exact ⟨fun _ => hc.1,fun _ => hc.2⟩
        · refine ⟨fun hpl => absurd hpl (hc.2 i),fun hcharge => ?_⟩
          rw [hc.1] at hcharge
          cases hcharge
      · rw [hother j hj]
        refine ⟨fun hpl => ?_,fun hcharge => absurd hcharge (hfree j hj)⟩
        rcases hafter with hc|hc
        · rw [hc.2] at hpl
          cases hpl
          exact absurd rfl hj
        · exact absurd hpl (hc.2 j)
    · rw [Function.update_of_ne hn,h.charged j n]
      by_cases hj : j=i
      · rw [hj,hself]
        exact ⟨fun hc => absurd hc (hmine n hn).1,fun hc => absurd hc (hmine n hn).2⟩
      · rw [hother j hj]
  · intro n
    by_cases hn : n=m
    · rw [hn,Function.update_self]
      exact hword
    · rw [Function.update_of_ne hn,(hothers n hn).1,hheld n hn,h.refs n]
      refine congrArg (·+held s n) (base_congr (place n) fun j hj => ?_).symm
      have hji : j≠i := by
        intro hji
        rw [hji] at hj
        exact (hmine n hn).1 ((h.charged i n).mp hj)
      rw [hother j hji]
  · intro n hn
    by_cases hm : n=m
    · rw [hm,Function.update_self] at hn
      rw [hm]
      exact hmarked hn
    · rw [Function.update_of_ne hm] at hn
      rw [hheld n hm]
      exact h.marked n hn
  · intro j n hj hstillj
    by_cases hji : j=i
    · rw [hji,hself] at hj hstillj
      by_cases hn : n=m
      · rw [hn]
        exact hstill hstillj
      · exact absurd hj (hmine n hn).2
    · rw [hother j hji] at hj hstillj
      have hn : n≠m := by
        intro hn
        rw [hn] at hj
        exact hfree j hji hj
      rw [hheld n hn]
      exact h.still j n hj hstillj
  · intro j
    by_cases hj : j=i
    · rw [hj,hself]
      exact hlinked
    · rw [hother j hj]
      exact hnext j hj

omit [DecidableEq ι] [Fintype ι] in
/-- A change between other places. -/
theorem update_eq_iff {pl v : Place ι} (hm : place m≠v) (hpl : pl≠v) (n : Block) :
    Function.update place m pl n=v ↔ place n=v := by
  by_cases hn : n=m
  · rw [hn,Function.update_self]
    exact ⟨fun heq => absurd heq hpl,fun heq => absurd heq hm⟩
  · rw [Function.update_of_ne hn]

omit [DecidableEq ι] in
/-- The list is not concerned. -/
theorem Sound.listed_kept {pl : Place ι} (h : Sound initialBlockPoolSize place list s)
    (hm : place m≠.listed) (hpl : pl≠.listed) (n : Block) :
    n∈list ↔ Function.update place m pl n=.listed :=
  (h.listed n).trans (update_eq_iff hm hpl n).symm

omit [DecidableEq ι] in
/-- What is handed out is not concerned. -/
theorem Sound.out_kept {pl : Place ι} (h : Sound initialBlockPoolSize place list s)
    (hm : (place m).handed=pl.handed) (n : Block) :
    s.out n=(Function.update place m pl n).handed := by
  by_cases hn : n=m
  · rw [hn,Function.update_self,←hm]
    exact h.out m
  · rw [Function.update_of_ne hn]
    exact h.out n

omit [DecidableEq ι] in
/-- A block is handed out or given back. -/
theorem Sound.out_moved {pl : Place ι} {k : ℕ} (h : Sound initialBlockPoolSize place list s)
    (hk : k=pl.handed) (n : Block) :
    Function.update s.out m k n=(Function.update place m pl n).handed := by
  by_cases hn : n=m
  · rw [hn,Function.update_self,Function.update_self,hk]
  · rw [Function.update_of_ne hn,Function.update_of_ne hn]
    exact h.out n

omit [DecidableEq ι] in
/-- No block is new. -/
theorem Sound.absent_kept {pl : Place ι} (h : Sound initialBlockPoolSize place list s)
    (hm : place m≠.absent) (hpl : pl≠.absent) (n : Block) :
    Function.update place m pl n=.absent ↔ ¬created initialBlockPoolSize s n :=
  (update_eq_iff hm hpl n).trans (h.absent n)

/-- What holds of a step which makes a block and hands it out. -/
structure Supplying (initialBlockPoolSize : ℕ) (s s' : State ι) (i : ι) (m : Block) : Prop where
  /-- The thread returns with it. -/
  phase : s'.phase=Function.update s.phase i .outside
  /-- The head stays. -/
  head : s'.head=s.head
  /-- So do the words. -/
  refs : s'.refs=s.refs
  /-- And the links. -/
  next : s'.next=s.next
  /-- The block is handed out. -/
  out : s'.out=Function.update s.out m (s.out m+1)
  /-- It did not exist. -/
  absent : ¬created initialBlockPoolSize s m
  /-- It is the only new one. -/
  created : ∀ n,created initialBlockPoolSize s' n ↔ created initialBlockPoolSize s n ∨ n=m
  /-- The thread has no block in charge. -/
  charge : (s.phase i).charge=none
  /-- And counts on none. -/
  holds : ∀ n,(s.phase i).holds n=0

/-- A new block is handed out. -/
theorem sound_new (h : Sound initialBlockPoolSize place list s)
    (hnew : Supplying initialBlockPoolSize s s' i m) :
    Sound initialBlockPoolSize (Function.update place m .out) list s' := by
  obtain ⟨hphase,hhead,hrefs,hnext,hout,habsent,hcreated,hcharge,hholds⟩ := hnew
  have hplace := (h.absent m).mpr habsent
  have hheld := held_update hphase m
  have hold := h.refs m
  rw [hholds m] at hheld
  rw [hplace] at hold
  refine sound_change h {
      phase := hphase
      before := .inl hcharge
      moved := .inr fun j => by rw [hplace]; nofun
      after := .inr ⟨rfl,nofun⟩
      others := fun n _ => ⟨by rw [hrefs],(hholds n).symm⟩
      word := ?_
      marked := nofun
      still := nofun
      linked := trivial
      next := ?_
      chain := ?_
      nodup := h.nodup
      listed := ?_
      out := ?_
      absent := ?_}
  · rw [hrefs,hold,show held s' m=held s m from hheld]
    rfl
  · intro j _
    rw [hnext]
    exact h.linked j
  · rw [hhead,hnext]
    exact h.chain
  · exact h.listed_kept (by rw [hplace]; nofun) nofun
  · rw [hout]
    exact h.out_moved (by rw [h.out m,hplace]; rfl)
  · intro n
    rw [hcreated n]
    by_cases hn : n=m
    · rw [hn,Function.update_self]
      exact ⟨nofun,fun hnot => absurd (.inr rfl) hnot⟩
    · rw [Function.update_of_ne hn,h.absent n]
      exact not_congr ⟨.inl,fun hor => hor.resolve_right hn⟩

omit [DecidableEq ι] in
/-- The word of a block and its bits. -/
theorem Sound.word_lt (h : Sound initialBlockPoolSize place list s)
    (hcard : Fintype.card ι < 2147483646) (n : Block) :
    held s n < 2147483646 ∧ s.refs n < 4294967294 := by
  have hheld := held_le_card s n
  have hrefs := h.refs n
  have hbase : (place n).base s.phase ≤ shouldBeOnFreeList := by
    cases place n with
    | charged j =>
      simp only [Place.base]
      cases s.phase j <;> simp only [Phase.base,shouldBeOnFreeList] <;> omega
    | _ =>
      simp only [Place.base,shouldBeOnFreeList]
      omega
  simp only [shouldBeOnFreeList] at hbase
  omega

/-- A thread begins to count on the block it has seen first. -/
theorem sound_acquire {refs : ℕ} (h : Sound initialBlockPoolSize place list s)
    (hcard : Fintype.card ι < 2147483646) (hi : s.phase i=.counting m refs)
    (hcounted : refs%shouldBeOnFreeList≠0) (hrefs : s.refs m=refs) :
    Sound initialBlockPoolSize place list
      ((s.count m (fetchAdd refs 1)).goto i (.reading m)) := by
  obtain ⟨hheld,hword⟩ := h.word_lt hcard m
  have hadd : fetchAdd refs 1=s.refs m+1 := by rw [←hrefs,fetchAdd_eq (by omega)]
  refine sound_count (m := m) h {
      phase := rfl
      head := rfl
      next := rfl
      out := rfl
      created := fun _ => Iff.rfl
      charge := by rw [hi]; rfl
      base := by rw [hi]; rfl
      still := by rw [hi]; rfl
      others := ?_
      word := ?_
      marked := ?_
      alone := ?_
      linked := trivial}
  · intro n hn
    refine ⟨Function.update_of_ne hn _ _,?_⟩
    rw [hi]
    exact if_neg (Ne.symm hn)
  · change Function.update s.refs m _ m+_=_
    rw [hi,Function.update_self,hadd]
    simp only [Phase.holds,if_true]
  · intro _
    have hmine := holds_le_held ((s.count m (fetchAdd refs 1)).goto i (.reading m)) m i
    simp only [State.goto,Function.update_self,Phase.holds,if_true] at hmine
    exact hmine
  · -- nobody can count on a block which is being linked: its count is zero
    intro j hj hstill
    have hzero := h.still j m hj hstill
    have hplace := (h.charged j m).mpr hj
    have hrefs' := h.refs m
    rw [hplace] at hrefs'
    simp only [Place.base] at hrefs'
    refine absurd ?_ hcounted
    rw [←hrefs,hrefs',hzero]
    cases hphase : s.phase j with
    | loading | linking | opening => simp only [Phase.base,add_zero,Nat.mod_self]
    | _ =>
      rw [hphase] at hstill
      cases hstill

/-- The first block is taken off the list. -/
theorem sound_pop {v : Option Block} (h : Sound initialBlockPoolSize place list s)
    (hi : s.phase i=.popping m v) (hhead : s.head=some m) :
    ∃ rest,list=m::rest ∧ Sound initialBlockPoolSize (Function.update place m (.charged i)) rest
      ((s.store v).goto i (.leaving m)) := by
  have hchain := h.chain
  rw [hhead] at hchain
  obtain ⟨rest,rfl,hrest⟩ := hchain.first
  have hlink := h.linked i
  rw [hi] at hlink
  have hplace := (h.listed m).mp List.mem_cons_self
  have hnodup := List.nodup_cons.mp h.nodup
  have hrefs := h.refs m
  rw [hplace] at hrefs
  have hheld : held ((s.store v).goto i (.leaving m)) m+(s.phase i).holds m=
      held s m+(Phase.leaving m).holds m := held_update rfl m
  rw [hi] at hheld
  simp only [Phase.holds,if_true] at hheld
  refine ⟨rest,rfl,sound_change h {
      phase := rfl
      before := .inl (by rw [hi]; rfl)
      moved := .inr fun j => by rw [hplace]; nofun
      after := .inl ⟨rfl,rfl⟩
      others := ?_
      word := ?_
      marked := nofun
      still := nofun
      linked := trivial
      next := fun j _ => h.linked j
      chain := ?_
      nodup := hnodup.2
      listed := ?_
      out := h.out_kept (by rw [hplace]; rfl)
      absent := h.absent_kept (by rw [hplace]; nofun) nofun}⟩
  · intro n hn
    refine ⟨rfl,?_⟩
    rw [hi]
    exact (if_neg (Ne.symm hn)).symm
  · change s.refs m=_
    simp only [Place.base,State.goto,Function.update_self,Phase.base] at hheld hrefs ⊢
    omega
  · change Chain s.next v rest
    rw [←hlink]
    exact hrest
  · intro n
    by_cases hn : n=m
    · rw [hn,Function.update_self]
      exact ⟨fun hmem => absurd hmem hnodup.1,nofun⟩
    · rw [Function.update_of_ne hn,←h.listed n,List.mem_cons]
      exact ⟨.inr,fun hor => hor.resolve_left hn⟩

/-- `try_get` returns its block. -/
theorem sound_leave (h : Sound initialBlockPoolSize place list s)
    (hcard : Fintype.card ι < 2147483646) (hi : s.phase i=.leaving m) :
    Sound initialBlockPoolSize (Function.update place m .out) list
      ((s.count m (fetchSub (s.refs m) 2)).give i m) := by
  have hplace := (h.charged i m).mpr (by rw [hi]; rfl)
  obtain ⟨-,hword⟩ := h.word_lt hcard m
  have hrefs := h.refs m
  rw [hplace] at hrefs
  simp only [Place.base,hi,Phase.base] at hrefs
  have hheld : held ((s.count m (fetchSub (s.refs m) 2)).give i m) m+(s.phase i).holds m=
      held s m+Phase.outside.holds m := held_update rfl m
  rw [hi] at hheld
  simp only [Phase.holds,add_zero] at hheld
  refine sound_change h {
      phase := rfl
      before := .inr (by rw [hi]; rfl)
      moved := .inl hplace
      after := .inr ⟨rfl,nofun⟩
      others := ?_
      word := ?_
      marked := nofun
      still := nofun
      linked := trivial
      next := fun j _ => h.linked j
      chain := h.chain
      nodup := h.nodup
      listed := h.listed_kept (by rw [hplace]; nofun) nofun
      out := ?_
      absent := h.absent_kept (by rw [hplace]; nofun) nofun}
  · intro n hn
    refine ⟨Function.update_of_ne hn _ _,?_⟩
    rw [hi]
    rfl
  · have hsub := fetchSub_eq (n := 2) (by omega) (hword.trans (by decide))
    change Function.update s.refs m _ m=_
    rw [Function.update_self]
    simp only [Place.base]
    omega
  · exact h.out_moved (by rw [State.count,h.out m,hplace]; rfl)

omit [DecidableEq ι] [Fintype ι] in
/-- A thread which goes on in `try_get`, or leaves, has nothing in charge and
counts on nothing. -/
theorem again_spec (v : Option Block) : (again v).charge=none ∧ (again v).base=0 ∧
    (again v).still=false ∧ (∀ n,(again v).holds n=0) ∧ ∀ next,(again v).Linked next := by
  cases v with
  | none => exact ⟨rfl,rfl,rfl,fun _ => rfl,fun _ => trivial⟩
  | some head => exact ⟨rfl,rfl,rfl,fun _ => rfl,fun _ => trivial⟩

omit [DecidableEq ι] [Fintype ι] in
/-- So it is after `add_knowing_refcount_is_zero`. -/
theorem resume_spec (back : Option (Option Block)) : (resume back).charge=none ∧
    (resume back).still=false ∧ (∀ n,(resume back).holds n=0) ∧
    ∀ next,(resume back).Linked next := by
  cases back with
  | none => exact ⟨rfl,rfl,fun _ => rfl,fun _ => trivial⟩
  | some v =>
    obtain ⟨hcharge,-,hstill,hholds,hlinked⟩ := again_spec v
    exact ⟨hcharge,hstill,hholds,hlinked⟩

omit [DecidableEq ι] in
/-- A block whose word is one above the mark is marked, and one thread counts on
it. -/
theorem Sound.marked_of_word (h : Sound initialBlockPoolSize place list s)
    (hcard : Fintype.card ι < 2147483646) (hholds : 0 < held s m)
    (hword : s.refs m=shouldBeOnFreeList+1) : place m=.marked ∧ held s m=1 := by
  obtain ⟨hheld,-⟩ := h.word_lt hcard m
  have hrefs := h.refs m
  rw [hword] at hrefs
  cases hplace : place m with
  | marked =>
    rw [hplace] at hrefs
    simp only [Place.base] at hrefs
    exact ⟨rfl,by omega⟩
  | charged j =>
    have hcharge := (h.charged j m).mp hplace
    have hstill := h.still j m hcharge
    rw [hplace] at hrefs
    cases hphase : s.phase j <;> rw [hphase] at hstill <;>
      simp only [Place.base,hphase,Phase.base,shouldBeOnFreeList] at hrefs <;>
      first | omega | exact absurd (hstill rfl) hholds.ne'
  | absent | out | listed =>
    rw [hplace] at hrefs
    simp only [Place.base,shouldBeOnFreeList] at hrefs
    omega

/-- A thread ceases to count on a block which is no longer the first one. If it is
marked and nobody else counts on it, this thread is in charge of it from now on. -/
theorem sound_drop {v : Option Block} (h : Sound initialBlockPoolSize place list s)
    (hcard : Fintype.card ι < 2147483646) (hi : s.phase i=.dropping m v) :
    ∃ place',Sound initialBlockPoolSize place' list
      ((s.count m (fetchSub (s.refs m) 1)).goto i
        (if s.refs m=shouldBeOnFreeList+1 then .loading m (some v) else again v)) := by
  have hmine := holds_le_held s m i
  rw [hi] at hmine
  simp only [Phase.holds,if_true] at hmine
  obtain ⟨hbound,hword⟩ := h.word_lt hcard m
  have hrefs := h.refs m
  have hsub : fetchSub (s.refs m) 1=s.refs m-1 := fetchSub_eq (by omega) (by omega)
  have hothers : ∀ n,n≠m → Function.update s.refs m (fetchSub (s.refs m) 1) n=s.refs n :=
    fun n hn => Function.update_of_ne hn _ _
  split
  · rename_i hlast
    obtain ⟨hplace,hone⟩ := h.marked_of_word hcard hmine hlast
    have hheld : held ((s.count m (fetchSub (s.refs m) 1)).goto i (.loading m (some v))) m+
        (s.phase i).holds m=held s m+(Phase.loading m (some v)).holds m := held_update rfl m
    rw [hi] at hheld
    simp only [Phase.holds,if_true] at hheld
    refine ⟨_,sound_change h {
        phase := rfl
        before := .inl (by rw [hi]; rfl)
        moved := .inr fun j => by rw [hplace]; nofun
        after := .inl ⟨rfl,rfl⟩
        others := fun n hn => ⟨hothers n hn,?_⟩
        word := ?_
        marked := nofun
        still := fun _ => by omega
        linked := trivial
        next := fun j _ => h.linked j
        chain := h.chain
        nodup := h.nodup
        listed := h.listed_kept (by rw [hplace]; nofun) nofun
        out := h.out_kept (by rw [hplace]; rfl)
        absent := h.absent_kept (by rw [hplace]; nofun) nofun}⟩
    · rw [hi]
      exact (if_neg (Ne.symm hn)).symm
    · change Function.update s.refs m _ m=_
      rw [Function.update_self]
      simp only [Place.base,State.goto,Function.update_self,Phase.base] at hheld ⊢
      omega
  · rename_i hmore
    obtain ⟨hcharge,hbase,hstill,hholds,hlinked⟩ := again_spec v
    have hheld : held ((s.count m (fetchSub (s.refs m) 1)).goto i (again v)) m+
        (s.phase i).holds m=held s m+(again v).holds m := held_update rfl m
    rw [hi,hholds m] at hheld
    simp only [Phase.holds,if_true] at hheld
    refine ⟨place,sound_count (m := m) h {
        phase := rfl
        head := rfl
        next := rfl
        out := rfl
        created := fun _ => Iff.rfl
        charge := by rw [hi,hcharge]; rfl
        base := by rw [hi,hbase]; rfl
        still := by rw [hi,hstill]; rfl
        others := fun n hn => ⟨hothers n hn,?_⟩
        word := ?_
        marked := ?_
        alone := ?_
        linked := hlinked _}⟩
    · rw [hi,hholds n]
      exact (if_neg (Ne.symm hn)).symm
    · change Function.update s.refs m _ m+_=_
      rw [hi,Function.update_self,hholds m]
      simp only [Phase.holds,if_true]
      omega
    · intro hplace
      rw [hplace] at hrefs
      simp only [Place.base] at hrefs
      omega
    · intro j hj hstillj
      have hzero := h.still j m hj hstillj
      omega

/-- A block which was handed out is given back. -/
theorem sound_add (h : Sound initialBlockPoolSize place list s) (hi : s.phase i=.outside)
    (hm : 0 < s.out m) :
    Sound initialBlockPoolSize (Function.update place m (.charged i)) list
      {s.goto i (.adding m) with out := Function.update s.out m (s.out m-1)} := by
  have hplace : place m=.out := by
    rw [h.out m] at hm
    cases hplace : place m with
    | out => rfl
    | _ =>
      rw [hplace] at hm
      cases hm
  have hrefs := h.refs m
  rw [hplace] at hrefs
  have hheld : held {s.goto i (.adding m) with out := Function.update s.out m (s.out m-1)} m+
      (s.phase i).holds m=held s m+(Phase.adding m).holds m := held_update rfl m
  rw [hi] at hheld
  simp only [Phase.holds,add_zero] at hheld
  refine sound_change h {
      phase := rfl
      before := .inl (by rw [hi]; rfl)
      moved := .inr fun j => by rw [hplace]; nofun
      after := .inl ⟨rfl,rfl⟩
      others := fun n _ => ⟨rfl,by rw [hi]; rfl⟩
      word := ?_
      marked := nofun
      still := nofun
      linked := trivial
      next := fun j _ => h.linked j
      chain := h.chain
      nodup := h.nodup
      listed := h.listed_kept (by rw [hplace]; nofun) nofun
      out := ?_
      absent := h.absent_kept (by rw [hplace]; nofun) nofun}
  · change s.refs m=_
    rw [hheld,hrefs]
    simp only [Place.base,State.goto,Function.update_self,Phase.base]
  · exact h.out_moved (by rw [h.out m,hplace]; rfl)

/-- The phases of a thread around the exchange which marks its block: it links the
block if nobody counts on it, and leaves it to the others if somebody does. -/
structure Marking (s : State ι) (i : ι) (m : Block) (r : ℕ) (x y : Phase) : Prop where
  /-- The block is in its charge. -/
  charge : (s.phase i).charge=some m
  /-- The exchange sets the flag bit. -/
  base : (s.phase i).base+r=shouldBeOnFreeList
  /-- The thread counts on no block. -/
  holds : ∀ n,(s.phase i).holds n=0
  /-- It links the block it has in charge. -/
  linksCharge : x.charge=some m
  /-- The word then has the flag bit. -/
  linksBase : x.base=shouldBeOnFreeList
  /-- It still counts on no block. -/
  linksHolds : ∀ n,x.holds n=0
  /-- It relies on no link yet. -/
  linksLinked : x.Linked s.next
  /-- It leaves the block to the others. -/
  leavesCharge : y.charge=none
  /-- It links none. -/
  leavesStill : y.still=false
  /-- It still counts on no block. -/
  leavesHolds : ∀ n,y.holds n=0
  /-- It knows the link it relies on. -/
  leavesLinked : y.Linked s.next

/-- The thread in charge of a block sets the mark. If nobody counts on the block
it goes on to link it, else it leaves it to the others. -/
theorem sound_mark {r : ℕ} {x y : Phase} (h : Sound initialBlockPoolSize place list s)
    (hcard : Fintype.card ι < 2147483646) (hmark : Marking s i m r x y) :
    ∃ place',Sound initialBlockPoolSize place' list
      ((s.count m (fetchAdd (s.refs m) r)).goto i
        (if s.refs m=(s.phase i).base then x else y)) := by
  obtain ⟨hcharge,hbase,hnone,hcharge₁,hbase₁,hholds₁,hlinked₁,hcharge₂,hstill₂,hholds₂,
    hlinked₂⟩ := hmark
  have hplace := (h.charged i m).mpr hcharge
  obtain ⟨hbound,-⟩ := h.word_lt hcard m
  have hrefs := h.refs m
  rw [hplace] at hrefs
  simp only [Place.base] at hrefs
  have hadd : fetchAdd (s.refs m) r=shouldBeOnFreeList+held s m := by
    unfold shouldBeOnFreeList at hbase ⊢
    rw [fetchAdd_eq (by omega)]
    omega
  have hothers : ∀ n,n≠m → Function.update s.refs m (fetchAdd (s.refs m) r) n=s.refs n :=
    fun n hn => Function.update_of_ne hn _ _
  have hheld : ∀ q : Phase,(∀ n,q.holds n=0) →
      held ((s.count m (fetchAdd (s.refs m) r)).goto i q) m=held s m := by
    intro q hq
    have hupdate : held ((s.count m (fetchAdd (s.refs m) r)).goto i q) m+(s.phase i).holds m=
        held s m+q.holds m := held_update rfl m
    rwa [hnone m,hq m] at hupdate
  split
  · rename_i halone
    refine ⟨_,sound_change h {
        phase := rfl
        before := .inr hcharge
        moved := .inl hplace
        after := .inl ⟨hcharge₁,rfl⟩
        others := fun n hn => ⟨hothers n hn,by rw [hholds₁ n,hnone n]⟩
        word := ?_
        marked := nofun
        still := fun _ => ?_
        linked := hlinked₁
        next := fun j _ => h.linked j
        chain := h.chain
        nodup := h.nodup
        listed := h.listed_kept (by rw [hplace]; nofun) nofun
        out := h.out_kept (congrArg _ hplace)
        absent := h.absent_kept (by rw [hplace]; nofun) nofun}⟩
    · rw [hheld x hholds₁]
      change Function.update s.refs m _ m=(Function.update s.phase i x i).base+held s m
      rw [Function.update_self,Function.update_self,hbase₁,hadd]
    · rw [hheld x hholds₁]
      omega
  · rename_i hcounted
    refine ⟨Function.update place m .marked,sound_change h {
        phase := rfl
        before := .inr hcharge
        moved := .inl hplace
        after := .inr ⟨hcharge₂,nofun⟩
        others := fun n hn => ⟨hothers n hn,by rw [hholds₂ n,hnone n]⟩
        word := ?_
        marked := fun _ => ?_
        still := fun hstill => ?_
        linked := hlinked₂
        next := fun j _ => h.linked j
        chain := h.chain
        nodup := h.nodup
        listed := h.listed_kept (by rw [hplace]; nofun) nofun
        out := h.out_kept (by rw [hplace]; rfl)
        absent := h.absent_kept (by rw [hplace]; nofun) nofun}⟩
    · rw [hheld y hholds₂]
      change Function.update s.refs m _ m=shouldBeOnFreeList+held s m
      rw [Function.update_self,hadd]
    · rw [hheld y hholds₂]
      omega
    · rw [hstill₂] at hstill
      cases hstill

omit [DecidableEq ι] in
/-- What others know of successors does not concern a block which is being
linked. -/
theorem linked_others {v : Option Block} (h : Sound initialBlockPoolSize place list s)
    (hcharge : (s.phase i).charge=some m) (hstill : (s.phase i).still=true) {j : ι} (hj : j≠i) :
    (s.phase j).Linked (Function.update s.next m v) := by
  have hzero := h.still i m hcharge hstill
  have hmine := holds_le_held s m j
  have hplace := (h.charged i m).mpr hcharge
  have hcharged := (h.charged j m).mpr
  have hlinked := h.linked j
  rw [hplace] at hcharged
  cases hphase : s.phase j with
  | popping head w =>
    rw [hphase] at hlinked hmine
    have hne : head≠m := by
      intro heq
      simp only [heq,Phase.holds,if_true] at hmine
      omega
    simp only [Phase.Linked,Function.update_of_ne hne]
    exact hlinked
  | opening node w back | pushing node w back =>
    rw [hphase] at hlinked hcharged
    have hne : node≠m := by
      intro heq
      cases hcharged (by rw [heq]; rfl)
      exact hj rfl
    simp only [Phase.Linked,Function.update_of_ne hne]
    exact hlinked
  | _ => exact trivial

/-- The block is linked to what the thread takes for the first one. -/
theorem sound_link {v : Option Block} {back : Option (Option Block)}
    (h : Sound initialBlockPoolSize place list s) (hi : s.phase i=.linking m v back) :
    Sound initialBlockPoolSize (Function.update place m (.charged i)) list
      {s.goto i (.opening m v back) with next := Function.update s.next m v} := by
  have hcharge : (s.phase i).charge=some m := by rw [hi]; rfl
  have hplace := (h.charged i m).mpr hcharge
  have hstill := h.still i m hcharge (by rw [hi]; rfl)
  have hrefs := h.refs m
  rw [hplace] at hrefs
  simp only [Place.base,hi] at hrefs
  have hheld : held {s.goto i (.opening m v back) with next := Function.update s.next m v} m+
      (s.phase i).holds m=held s m+(Phase.opening m v back).holds m := held_update rfl m
  rw [hi] at hheld
  simp only [Phase.holds,add_zero] at hheld
  have hout : m∉list := by
    rw [h.listed m,hplace]
    nofun
  refine sound_change h {
      phase := rfl
      before := .inr hcharge
      moved := .inl hplace
      after := .inl ⟨rfl,rfl⟩
      others := fun n _ => ⟨rfl,by rw [hi]; rfl⟩
      word := ?_
      marked := nofun
      still := fun _ => by rw [hheld,hstill]
      linked := Function.update_self _ _ _
      next := fun j hj => linked_others h hcharge (by rw [hi]; rfl) hj
      chain := h.chain.update hout v
      nodup := h.nodup
      listed := h.listed_kept (by rw [hplace]; nofun) nofun
      out := h.out_kept (congrArg _ hplace)
      absent := h.absent_kept (by rw [hplace]; nofun) nofun}
  change s.refs m=(Function.update s.phase i _ i).base+_
  rw [Function.update_self,hheld,hrefs]
  rfl

/-- From now on others may count on the block again. -/
theorem sound_opens {v : Option Block} {back : Option (Option Block)}
    (h : Sound initialBlockPoolSize place list s) (hi : s.phase i=.opening m v back) :
    Sound initialBlockPoolSize (Function.update place m (.charged i)) list
      ((s.count m 1).goto i (.pushing m v back)) := by
  have hcharge : (s.phase i).charge=some m := by rw [hi]; rfl
  have hplace := (h.charged i m).mpr hcharge
  have hstill := h.still i m hcharge (by rw [hi]; rfl)
  have hlinked := h.linked i
  rw [hi] at hlinked
  have hheld : held ((s.count m 1).goto i (.pushing m v back)) m+(s.phase i).holds m=
      held s m+(Phase.pushing m v back).holds m := held_update rfl m
  rw [hi] at hheld
  simp only [Phase.holds,add_zero] at hheld
  refine sound_change h {
      phase := rfl
      before := .inr hcharge
      moved := .inl hplace
      after := .inl ⟨rfl,rfl⟩
      others := fun n hn => ⟨Function.update_of_ne hn _ _,by rw [hi]; rfl⟩
      word := ?_
      marked := nofun
      still := nofun
      linked := hlinked
      next := fun j _ => h.linked j
      chain := h.chain
      nodup := h.nodup
      listed := h.listed_kept (by rw [hplace]; nofun) nofun
      out := h.out_kept (congrArg _ hplace)
      absent := h.absent_kept (by rw [hplace]; nofun) nofun}
  change Function.update s.refs m 1 m=(Function.update s.phase i _ i).base+_
  rw [Function.update_self,Function.update_self,hheld,hstill]
  rfl

/-- The block is put on the list. -/
theorem sound_push {v : Option Block} {back : Option (Option Block)}
    (h : Sound initialBlockPoolSize place list s) (hi : s.phase i=.pushing m v back)
    (hhead : s.head=v) :
    Sound initialBlockPoolSize (Function.update place m .listed) (m::list)
      ((s.store (some m)).goto i (resume back)) := by
  have hcharge : (s.phase i).charge=some m := by rw [hi]; rfl
  have hplace := (h.charged i m).mpr hcharge
  have hlinked := h.linked i
  rw [hi] at hlinked
  have hrefs := h.refs m
  rw [hplace] at hrefs
  simp only [Place.base,hi] at hrefs
  obtain ⟨hnone,hstill,hholds,hlinked'⟩ := resume_spec back
  have hheld : held ((s.store (some m)).goto i (resume back)) m+(s.phase i).holds m=
      held s m+(resume back).holds m := held_update rfl m
  rw [hi,hholds m] at hheld
  simp only [Phase.holds,add_zero] at hheld
  have hout : m∉list := by
    rw [h.listed m,hplace]
    nofun
  refine sound_change h {
      phase := rfl
      before := .inr hcharge
      moved := .inl hplace
      after := .inr ⟨hnone,nofun⟩
      others := fun n _ => ⟨rfl,by rw [hi,hholds n]; rfl⟩
      word := ?_
      marked := nofun
      still := fun hs => ?_
      linked := hlinked' _
      next := fun j _ => h.linked j
      chain := ⟨rfl,?_⟩
      nodup := List.nodup_cons.mpr ⟨hout,h.nodup⟩
      listed := ?_
      out := h.out_kept (by rw [hplace]; rfl)
      absent := h.absent_kept (by rw [hplace]; nofun) nofun}
  · change s.refs m=1+_
    rw [hheld,hrefs]
    rfl
  · rw [hstill] at hs
    cases hs
  · change Chain s.next (s.next m) list
    rw [show s.next m=v from hlinked,←hhead]
    exact h.chain
  · intro n
    by_cases hn : n=m
    · rw [hn,Function.update_self]
      exact ⟨fun _ => rfl,fun _ => List.mem_cons_self⟩
    · rw [Function.update_of_ne hn,←h.listed n,List.mem_cons]
      exact ⟨fun hor => hor.resolve_left hn,.inr⟩

/-- A thread moves on in its call. -/
theorem sound_goto {p : Phase} (h : Sound initialBlockPoolSize place list s) (hi : s.phase i=p)
    (hcharge : q.charge=p.charge) (hbase : q.base=p.base) (hstill : q.still=p.still)
    (hholds : ∀ n,q.holds n=p.holds n) (hlinked : q.Linked s.next) :
    Sound initialBlockPoolSize place list (s.goto i q) := by
  rw [←hi] at hcharge hbase hstill hholds
  exact sound_plain h {
      phase := rfl
      head := rfl
      refs := rfl
      next := rfl
      out := rfl
      created := fun _ => Iff.rfl
      charge := hcharge
      base := hbase
      still := hstill
      holds := hholds
      linked := hlinked}

/-- Every step keeps the invariant. -/
theorem sound_step {a : Act ι} (hcard : Fintype.card ι < 2147483646)
    (h : Sound initialBlockPoolSize place list s) (hn : next initialBlockPoolSize s a=some s') :
    ∃ place' list',Sound initialBlockPoolSize place' list' s' := by
  cases a with
  | requisition i =>
    simp only [next] at hn
    split_ifs at hn with hi
    cases hn
    exact ⟨place,list,sound_goto h hi rfl rfl rfl (fun _ => rfl) trivial⟩
  | loadIndex i index =>
    simp only [next] at hn
    split at hn <;> try cases hn
    rename_i hi
    rw [Option.ite_none_right_eq_some] at hn
    cases hn.2
    refine ⟨place,list,?_⟩
    split
    · exact sound_goto h hi rfl rfl rfl (fun _ => rfl) trivial
    · exact sound_goto h hi rfl rfl rfl (fun _ => rfl) trivial
  | draw i =>
    simp only [next] at hn
    split at hn <;> try cases hn
    rename_i hi
    split_ifs at hn with hsize
    · cases hn
      refine ⟨_,list,sound_new (m := .pool s.poolIndex) h {
          phase := rfl
          head := rfl
          refs := rfl
          next := rfl
          out := rfl
          absent := fun hc => lt_irrefl _ hc.1
          created := ?_
          charge := by rw [hi]; rfl
          holds := fun n => by rw [hi]; rfl}⟩
      intro n
      cases n with
      | pool index =>
        simp only [created,Block.pool.injEq]
        omega
      | heap serial =>
        simp only [created,reduceCtorEq,or_false]
        rfl
    · cases hn
      refine ⟨place,list,sound_plain h {
          phase := rfl
          head := rfl
          refs := rfl
          next := rfl
          out := rfl
          created := ?_
          charge := by rw [hi]; rfl
          base := by rw [hi]; rfl
          still := by rw [hi]; rfl
          holds := fun n => by rw [hi]; rfl
          linked := trivial}⟩
      intro n
      cases n with
      | pool index =>
        simp only [created]
        omega
      | heap serial => exact Iff.rfl
  | loadHead i v =>
    simp only [next] at hn
    split_ifs at hn
    split at hn <;> cases hn
    · rename_i hi
      obtain ⟨hcharge,hbase,hstill,hholds,hlinked⟩ := again_spec v
      exact ⟨place,list,sound_goto h hi hcharge hbase hstill hholds (hlinked _)⟩
    · rename_i hi
      exact ⟨place,list,sound_goto h hi rfl rfl rfl (fun _ => rfl) trivial⟩
  | loadRefs i refs =>
    simp only [next] at hn
    split at hn <;> cases hn
    rename_i hi
    exact ⟨place,list,sound_goto h hi rfl rfl rfl (fun _ => rfl) trivial⟩
  | acquire i =>
    simp only [next] at hn
    split at hn <;> try cases hn
    rename_i head refs hi
    split_ifs at hn with hfails
    · cases hn
      exact ⟨place,list,sound_goto h hi rfl rfl rfl (fun _ => rfl) trivial⟩
    · cases hn
      rw [not_or,not_not] at hfails
      exact ⟨place,list,sound_acquire h hcard hi hfails.1 hfails.2⟩
  | loadNext i =>
    simp only [next] at hn
    split at hn <;> cases hn
    rename_i hi
    exact ⟨place,list,sound_goto h hi rfl rfl rfl (fun _ => rfl) rfl⟩
  | pop i =>
    simp only [next] at hn
    split at hn <;> try cases hn
    rename_i head v hi
    split_ifs at hn with hhead
    cases hn
    obtain ⟨rest,-,hsound⟩ := sound_pop h hi hhead
    exact ⟨_,rest,hsound⟩
  | popFails i v =>
    simp only [next] at hn
    split_ifs at hn
    split at hn <;> try cases hn
    rename_i hi
    split_ifs at hn
    cases hn
    exact ⟨place,list,sound_goto h hi rfl rfl rfl (fun _ => rfl) trivial⟩
  | leave i =>
    simp only [next] at hn
    split at hn <;> cases hn
    rename_i hi
    exact ⟨_,list,sound_leave h hcard hi⟩
  | drop i =>
    simp only [next] at hn
    split at hn <;> cases hn
    rename_i hi
    obtain ⟨place',hsound⟩ := sound_drop h hcard hi
    exact ⟨place',list,hsound⟩
  | create i =>
    simp only [next] at hn
    split at hn <;> cases hn
    rename_i hi
    refine ⟨_,list,sound_new (m := .heap s.allocated) h {
        phase := rfl
        head := rfl
        refs := rfl
        next := rfl
        out := rfl
        absent := fun hc => lt_irrefl _ hc
        created := ?_
        charge := by rw [hi]; rfl
        holds := fun n => by rw [hi]; rfl}⟩
    intro n
    cases n with
    | pool index =>
      simp only [created,reduceCtorEq,or_false]
      rfl
    | heap serial =>
      simp only [created,Block.heap.injEq]
      omega
  | giveUp i =>
    simp only [next] at hn
    split at hn <;> cases hn
    rename_i hi
    exact ⟨place,list,sound_goto h hi rfl rfl rfl (fun _ => rfl) trivial⟩
  | add i node =>
    simp only [next] at hn
    split_ifs at hn with hi
    cases hn
    exact ⟨_,list,sound_add h hi.1 hi.2⟩
  | mark i =>
    simp only [next] at hn
    split at hn <;> cases hn
    rename_i node hi
    obtain ⟨place',hsound⟩ := sound_mark (r := shouldBeOnFreeList) (i := i) (m := node)
      (x := .loading node none) (y := .outside) h hcard {
        charge := by rw [hi]; rfl
        base := by rw [hi]; exact Nat.zero_add _
        holds := fun _ => by rw [hi]; rfl
        linksCharge := rfl
        linksBase := rfl
        linksHolds := fun _ => rfl
        linksLinked := trivial
        leavesCharge := rfl
        leavesStill := rfl
        leavesHolds := fun _ => rfl
        leavesLinked := trivial}
    rw [hi] at hsound
    exact ⟨place',list,hsound⟩
  | link i =>
    simp only [next] at hn
    split at hn <;> cases hn
    rename_i hi
    exact ⟨_,list,sound_link h hi⟩
  | opens i =>
    simp only [next] at hn
    split at hn <;> cases hn
    rename_i hi
    exact ⟨_,list,sound_opens h hi⟩
  | push i =>
    simp only [next] at hn
    split at hn <;> try cases hn
    rename_i node v back hi
    split_ifs at hn with hhead
    cases hn
    exact ⟨_,_,sound_push h hi hhead⟩
  | pushFails i v =>
    simp only [next] at hn
    split_ifs at hn
    split at hn <;> try cases hn
    rename_i hi
    split_ifs at hn
    cases hn
    exact ⟨place,list,sound_goto h hi rfl rfl rfl (fun _ => rfl) trivial⟩
  | retract i =>
    simp only [next] at hn
    split at hn <;> cases hn
    rename_i node v back hi
    obtain ⟨hnone,hstill,hholds,hlinked⟩ := resume_spec back
    obtain ⟨place',hsound⟩ := sound_mark (r := shouldBeOnFreeList-1) (i := i) (m := node)
      (x := .linking node v back) (y := resume back) h hcard {
        charge := by rw [hi]; rfl
        base := by rw [hi]; simp only [Phase.base,shouldBeOnFreeList]
        holds := fun _ => by rw [hi]; rfl
        linksCharge := rfl
        linksBase := rfl
        linksHolds := fun _ => rfl
        linksLinked := trivial
        leavesCharge := hnone
        leavesStill := hstill
        leavesHolds := hholds
        leavesLinked := hlinked _}
    rw [hi] at hsound
    exact ⟨place',list,hsound⟩

end Changes

section Runs

variable {initialBlockPoolSize : ℕ} {acts : List (Act ι)} {s : State ι}

omit [DecidableEq ι] in
/-- Nothing exists yet. -/
theorem sound_start : Sound initialBlockPoolSize (fun _ => .absent) [] (.start : State ι) := by
  have hheld : ∀ n,held (.start : State ι) n=0 := fun n => total_eq_zero _ _ fun _ => rfl
  refine ⟨rfl,List.nodup_nil,fun n => ⟨nofun,nofun⟩,fun _ => rfl,
    fun n => ⟨fun _ => ?_,fun _ => rfl⟩,
    fun _ _ => ⟨nofun,nofun⟩,fun n => ?_,nofun,nofun,fun _ => trivial⟩
  · cases n with
    | pool index => exact fun hc => Nat.not_lt_zero _ hc.1
    | heap serial => exact Nat.not_lt_zero _
  · rw [hheld]
    rfl

/-- The invariant holds in every state of every interleaving. -/
theorem sound_of_reaches (hcard : Fintype.card ι < 2147483646)
    (h : Reaches (next initialBlockPoolSize) Unrestricted .start acts s) :
    ∃ place list,Sound initialBlockPoolSize place list s := by
  refine h.invariant (I := fun s => ∃ place list,Sound initialBlockPoolSize place list s)
    ⟨_,[],sound_start⟩ ?_
  intro s a s' ⟨place,list,hsound⟩ _ hn
  exact sound_step hcard hsound hn

/-- No block is ever in two hands, and none is lost. In every state of every
interleaving of `requisition_block` and of blocks given back by fewer than
`2^31-2` threads, with outdated loads of the head and exchanges which fail: no
block was handed out twice without being given back; the free list is linked, has
no block twice and none which is in use; the block which `try_get` is about to
return is not marked, as its assertion says, was not handed out, is off the list,
and is nobody else's. With no thread in a call every block which exists is in use
or on the list. -/
theorem blocks_never_shared_never_lost (hcard : Fintype.card ι < 2147483646)
    (h : Reaches (next initialBlockPoolSize) Unrestricted .start acts s) :
    (∀ n,s.out n ≤ 1) ∧ ∃ list,Chain s.next s.head list ∧ list.Nodup ∧ (∀ n∈list,s.out n=0) ∧
      (∀ i n,s.phase i=.leaving n → s.refs n < shouldBeOnFreeList ∧ s.out n=0 ∧ n∉list ∧
        ∀ j,(s.phase j).charge=some n → j=i) ∧
      ((∀ i,s.phase i=.outside) → ∀ n,created initialBlockPoolSize s n →
        s.out n=1 ∧ s.refs n=0 ∨ n∈list ∧ s.refs n=1) := by
  obtain ⟨place,list,hsound⟩ := sound_of_reaches hcard h
  refine ⟨fun n => ?_,list,hsound.chain,hsound.nodup,fun n hn => ?_,fun i n hi => ?_,
    fun houtside n hn => ?_⟩
  · rw [hsound.out n]
    cases place n <;> simp only [Place.handed] <;> omega
  · rw [hsound.out n,(hsound.listed n).mp hn]
    rfl
  · have hplace := (hsound.charged i n).mpr (by rw [hi]; rfl)
    obtain ⟨hheld,-⟩ := hsound.word_lt hcard n
    have hrefs := hsound.refs n
    rw [hplace] at hrefs
    simp only [Place.base,hi,Phase.base] at hrefs
    refine ⟨?_,?_,?_,fun j hj => ?_⟩
    · unfold shouldBeOnFreeList
      omega
    · rw [hsound.out n,hplace]
      rfl
    · rw [hsound.listed n,hplace]
      intro hc
      cases hc
    · have hother := (hsound.charged j n).mpr hj
      rw [hplace] at hother
      cases hother
      rfl
  · have hheld : held s n=0 := total_eq_zero _ _ fun i => by rw [houtside i]; rfl
    have hrefs := hsound.refs n
    have hout := hsound.out n
    rw [hheld,add_zero] at hrefs
    cases hplace : place n with
    | absent => exact absurd hn ((hsound.absent n).mp hplace)
    | out =>
      rw [hplace] at hrefs hout
      exact .inl ⟨hout,hrefs⟩
    | listed =>
      rw [hplace] at hrefs
      exact .inr ⟨(hsound.listed n).mpr hplace,hrefs⟩
    | marked =>
      have hpositive := hsound.marked n hplace
      omega
    | charged i =>
      have hcharge := (hsound.charged i n).mp hplace
      rw [houtside i] at hcharge
      cases hcharge

end Runs

end Totals

/-- Thread 1 gets the first block of the list. -/
def takeFirst (block : Block) (refs : ℕ) : List (Act (Fin 2)) :=
  [.requisition 1,.loadIndex 1 2,.loadHead 1 (some block),.loadRefs 1 refs,.acquire 1,.loadNext 1,
    .pop 1,.leave 1]

/-- Thread 1 puts a block which nobody counts on before this one. -/
def putFirst (block : Block) (head : Option Block) : List (Act (Fin 2)) :=
  [.add 1 block,.mark 1,.loadHead 1 head,.link 1,.opens 1,.push 1]

/-- Thread 0 has read the first block and its successor and stops. Thread 1 takes
both off the list and gives the first one back. A plain stack would now have the
first block on top again and let thread 0 put its outdated successor there. Here
the block is only marked, the exchange of thread 0 fails, and thread 0 itself
puts the block back. -/
def returningRun : List (Act (Fin 2)) :=
  [.requisition 1,.loadIndex 1 0,.draw 1,.requisition 1,.loadIndex 1 1,.draw 1]++
    putFirst (.pool 1) none++putFirst (.pool 0) (some (.pool 1))++
    [.requisition 0,.loadIndex 0 2,.loadHead 0 (some (.pool 0)),.loadRefs 0 1,.acquire 0,
      .loadNext 0]++
    takeFirst (.pool 0) 2++takeFirst (.pool 1) 1++
    [.add 1 (.pool 0),.mark 1,.popFails 0 none,.drop 0,.loadHead 0 none,.link 0,.opens 0,.push 0,
      .create 0]

/-- At the end the first block is on the list, and the second one and a new one
are in use. -/
theorem blocks_never_shared_never_lost_returning :
    ∃ s : State (Fin 2),Reaches (next 2) Unrestricted .start returningRun s ∧
      s.head=some (.pool 0) ∧ s.out (.pool 1)=1 ∧ s.out (.heap 0)=1 ∧ ∀ n,s.out n ≤ 1 := by
  obtain ⟨s,hs,hseen⟩ := reaches_of_replay (next 2) Unrestricted .start returningRun
    (fun s => (s.head,s.out (.pool 1),s.out (.heap 0))) (some (.pool 0),1,1) (by decide +kernel)
  simp only [Prod.mk.injEq] at hseen
  exact ⟨s,hs,hseen.1,hseen.2.1,hseen.2.2,(blocks_never_shared_never_lost (by decide) hs).1⟩

end FastEventSystem.BlockFreeList
