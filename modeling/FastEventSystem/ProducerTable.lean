import Mathlib.Algebra.Group.Nat.Defs
import FastEventSystem.GuardedRuns
import FastEventSystem.LinearProbing
import FastEventSystem.LinkedNodes

/-!
# Which producer a thread gets

`enqueue` without a token looks up the producer of its thread in a hash table
with linear probing, and adds one if there is none. The key is `thread_id()`, the
address of a variable of the thread, and no hook removes it when the thread ends.
So a later thread may have the id of one which ended, and goes on with its
producer; all threads which have an id one after the other are one thread below.
Tables are never copied: a larger one is put before the old ones, and a thread
which is found in an old one adds itself to the first. One count of all threads
serves all tables, and a thread may add itself to a table while that is less than
three quarters full by the count. A token gets a producer too, which may be one
that an earlier token left behind.

Nothing is locked but the allocation of a new table. The loads of the first
table, of the keys and of the end of the list of producers may be outdated, as far
as they are not older than what the same thread loaded before.
-/

namespace FastEventSystem.ProducerTable

open GuardedRuns LinearProbing LinkedNodes

/-- For whom `recycle_or_create_producer` looks. -/
inductive Demand where
  /-- For a thread, which will add it to this table. -/
  | thread (mainHash : ℕ)
  /-- For a token. -/
  | token
  deriving DecidableEq

/-- The argument `isExplicit`. -/
def Demand.isExplicit : Demand → Bool
  | .thread _ => false
  | .token => true

/-- Where a thread stands. Tables are numbered in the order of their allocation,
producers too. -/
inductive Phase where
  /-- In no call. -/
  | outside
  /-- In `get_or_add_implicit_producer`, before the first load of
  `implicitProducerHash`. -/
  | entering
  /-- In the search, before the load of a key. -/
  | probing (mainHash hash index : ℕ)
  /-- Not found; before it adds to `implicitProducerHashCount`. -/
  | counting (mainHash : ℕ)
  /-- At the head of the loop which inserts. -/
  | deciding (mainHash newCount : ℕ)
  /-- It has set `implicitProducerHashResizeInProgress`. -/
  | reloading (newCount : ℕ)
  /-- Before the allocation of a table. -/
  | allocating (mainHash newCount : ℕ)
  /-- There was no memory; before it clears the flag. -/
  | undoing
  /-- Before it clears the flag. -/
  | unlocking (mainHash newCount : ℕ)
  /-- The table is quite full; before it loads `implicitProducerHash` again. -/
  | waiting (newCount : ℕ)
  /-- In `recycle_or_create_producer`, before the load of `producerListTail`. -/
  | listing (demand : Demand)
  /-- Before the load of `inactive`. -/
  | walking (demand : Demand) (ptr : ℕ)
  /-- Before the exchange of `inactive`. -/
  | grabbing (demand : Demand) (ptr : ℕ)
  /-- It has got an old producer; before it subtracts from the count. -/
  | refunding (mainHash producer : ℕ)
  /-- Before the allocation of a producer. -/
  | creating (demand : Demand)
  /-- There was no memory; before it subtracts from the count. -/
  | failing
  /-- In `add_producer`, before the load of `producerListTail`. -/
  | chaining (demand : Demand) (producer : ℕ)
  /-- Before the exchange of `producerListTail`. -/
  | hooking (demand : Demand) (producer : ℕ) (prevTail : Option ℕ)
  /-- Looking for a free slot, before the load of a key. -/
  | placing (mainHash index : ℕ) (value : Option ℕ)
  /-- Before the exchange of the key. -/
  | claiming (mainHash index : ℕ) (value : Option ℕ)
  /-- Before the store of the value. -/
  | storing (mainHash index : ℕ) (value : Option ℕ)
  deriving DecidableEq

/-- The tables, the producers, the threads and the histories. -/
structure State (ι : Type*) where
  /-- The field `implicitProducerHash`. -/
  implicitProducerHash : ℕ
  /-- The field `capacity` of every table. -/
  capacity : ℕ → ℕ
  /-- The field `prev`. -/
  prev : ℕ → Option ℕ
  /-- The keys; `none` is `invalid_thread_id`. -/
  key : ℕ → ℕ → Option ι
  /-- The values. -/
  value : ℕ → ℕ → Option ℕ
  /-- The field `implicitProducerHashCount`. -/
  count : ℕ
  /-- The flag `implicitProducerHashResizeInProgress`. -/
  resizing : Bool
  /-- History: how many producers were allocated. -/
  created : ℕ
  /-- The field `isExplicit` of every producer. -/
  isExplicit : ℕ → Bool
  /-- The field `inactive`. -/
  inactive : ℕ → Bool
  /-- The field `next`. -/
  next : ℕ → Option ℕ
  /-- The field `producerListTail`. -/
  producerListTail : Option ℕ
  /-- History of its earlier values. -/
  past : List (Option ℕ)
  /-- History: which keys a thread knows to be set. -/
  known : ι → ℕ → ℕ → Bool
  /-- History: the newest table a thread knows. -/
  latest : ι → ℕ
  /-- History: how many tokens have a producer. -/
  tokens : ℕ → ℕ
  /-- History: what `get_or_add_implicit_producer` returned to whom. -/
  returned : List (ι × Option ℕ)
  /-- Every thread's position. -/
  phase : ι → Phase

variable {ι : Type*}

/-- `populate_initial_implicit_producer_hash`, and no producer yet. -/
def State.start (initialSize : ℕ) : State ι where
  implicitProducerHash := 0
  capacity := fun _ => initialSize
  prev := fun _ => none
  key := fun _ _ => none
  value := fun _ _ => none
  count := 0
  resizing := false
  created := 0
  isExplicit := fun _ => false
  inactive := fun _ => false
  next := fun _ => none
  producerListTail := none
  past := []
  known := fun _ _ _ => false
  latest := fun _ => 0
  tokens := fun _ => 0
  returned := []
  phase := fun _ => .outside

/-- One step of a thread. -/
inductive Act (ι : Type*) where
  /-- Begin `get_or_add_implicit_producer`. -/
  | enter (i : ι)
  /-- `implicitProducerHash.load`, which returns this table. -/
  | loadHash (i : ι) (table : ℕ)
  /-- `key.load`, which returns this key. -/
  | loadKey (i : ι) (probedKey : Option ι)
  /-- `implicitProducerHashCount.fetch_add`. -/
  | draw (i : ι)
  /-- The first test of the count, and `test_and_set`. -/
  | lock (i : ι)
  /-- The load of `implicitProducerHash` by the thread which has set the flag. -/
  | reload (i : ι)
  /-- A new table. -/
  | allocate (i : ι)
  /-- No memory for it. -/
  | allocateFails (i : ι)
  /-- `implicitProducerHashResizeInProgress.clear`. -/
  | clear (i : ι)
  /-- `producerListTail.load`, which returns this value. -/
  | loadTail (i : ι) (v : Option ℕ)
  /-- `inactive.load`, which returns this value. -/
  | loadInactive (i : ι) (inactive : Bool)
  /-- The exchange of `inactive`. -/
  | grab (i : ι)
  /-- `implicitProducerHashCount.fetch_sub`. -/
  | refund (i : ι)
  /-- A new producer. -/
  | create (i : ι)
  /-- No memory for it. -/
  | createFails (i : ι)
  /-- The exchange of `producerListTail` succeeds. -/
  | hook (i : ι)
  /-- It fails and loads this value. -/
  | hookFails (i : ι) (v : Option ℕ)
  /-- The exchange of a key. -/
  | claim (i : ι)
  /-- The store of the value. -/
  | store (i : ι)
  /-- Begin the constructor of `ProducerToken`. -/
  | construct (i : ι)
  /-- The destructor of a token which has this producer. -/
  | destroy (i : ι) (producer : ℕ)

/-- The thread of a step. -/
def Act.thread : Act ι → ι
  | .enter i | .loadHash i _ | .loadKey i _ | .draw i | .lock i | .reload i | .allocate i
  | .allocateFails i | .clear i | .loadTail i _ | .loadInactive i _ | .grab i | .refund i
  | .create i | .createFails i | .hook i | .hookFails i _ | .claim i | .store i | .construct i
  | .destroy i _ => i

/-- The value was in `producerListTail` at some time. -/
def State.Seen (s : State ι) (v : Option ℕ) : Prop := v=s.producerListTail ∨ v∈s.past

instance (s : State ι) (v : Option ℕ) : Decidable (s.Seen v) := inferInstanceAs (Decidable (_∨_))

/-- `index & (capacity - 1)`. -/
def State.mask (s : State ι) (table index : ℕ) : ℕ := index &&& (s.capacity table-1)

/-- Three quarters of the slots. -/
def State.room (s : State ι) (table : ℕ) : ℕ := s.capacity table/2+s.capacity table/4

/-- The loop over the list of producers. -/
def walk (demand : Demand) : Option ℕ → Phase
  | none => .creating demand
  | some ptr => .walking demand ptr

/-- The second test of the count. -/
def State.accept (s : State ι) (mainHash newCount : ℕ) : Phase :=
  if newCount < s.room mainHash then .listing (.thread mainHash) else .waiting newCount

/-- The loop which doubles the capacity, with a bound on its rounds. -/
def widen (newCount : ℕ) : ℕ → ℕ → ℕ
  | 0,newCapacity => newCapacity
  | rounds+1,newCapacity =>
    if newCapacity/2 ≤ newCount then widen newCount rounds (newCapacity*2) else newCapacity

/-- Link a producer to the end of the list, and make it the end. -/
def State.push (s : State ι) (producer : ℕ) (prevTail : Option ℕ) : State ι :=
  {s with
    next := Function.update s.next producer prevTail
    producerListTail := some producer
    past := s.producerListTail::s.past}

variable [DecidableEq ι]

/-- Move one thread. -/
def State.goto (s : State ι) (i : ι) (p : Phase) : State ι :=
  {s with phase := Function.update s.phase i p}

/-- A thread has loaded a table. -/
def State.see (s : State ι) (i : ι) (table : ℕ) : State ι :=
  {s with latest := Function.update s.latest i table}

/-- A thread has found a key set. -/
def State.learn (s : State ι) (i : ι) (table k : ℕ) : State ι :=
  {s with known := Function.update s.known i (Function.update (s.known i) table
    (Function.update (s.known i table) k true))}

/-- `get_or_add_implicit_producer` returns. -/
def State.finish (s : State ι) (i : ι) (value : Option ℕ) : State ι :=
  {s.goto i .outside with returned := (i,value)::s.returned}

/-- A load of a key may return this: the key, or that there is none, unless the
thread knows better. -/
def State.Loads (s : State ι) (i : ι) (table k : ℕ) (probedKey : Option ι) : Prop :=
  probedKey=s.key table k ∨ probedKey=none ∧ s.known i table k=false

instance (s : State ι) (i : ι) (table k : ℕ) (probedKey : Option ι) :
    Decidable (s.Loads i table k probedKey) := inferInstanceAs (Decidable (_∨_∧_))

/-- `recycle_or_create_producer` returns a producer which is on the list. -/
def State.supply (hashedId : ι → ℕ) (s : State ι) (i : ι) (producer : ℕ) : Demand → State ι
  | .thread mainHash => s.goto i (.placing mainHash (hashedId i) (some producer))
  | .token =>
    {s.goto i .outside with tokens := Function.update s.tokens producer (s.tokens producer+1)}

/-- Perform one step. -/
def next (hashedId : ι → ℕ) (s : State ι) : Act ι → Option (State ι)
  | .enter i => if s.phase i=.outside then some (s.goto i .entering) else none
  | .loadHash i table =>
    if s.latest i ≤ table ∧ table ≤ s.implicitProducerHash then
      match s.phase i with
      | .entering => some ((s.see i table).goto i (.probing table table (hashedId i)))
      | .waiting newCount => some ((s.see i table).goto i (.deciding table newCount))
      | _ => none
    else none
  | .loadKey i probedKey =>
    match s.phase i with
    | .probing mainHash hash index =>
      if s.Loads i hash (s.mask hash index) probedKey then
        if probedKey=some i then
          if hash=mainHash then some (s.finish i (s.value hash (s.mask hash index)))
          else some (s.goto i (.placing mainHash (hashedId i) (s.value hash (s.mask hash index))))
        else if probedKey=none then
          match s.prev hash with
          | none => some (s.goto i (.counting mainHash))
          | some older => some (s.goto i (.probing mainHash older (hashedId i)))
        else some ((s.learn i hash (s.mask hash index)).goto i
          (.probing mainHash hash (s.mask hash index+1)))
      else none
    | .placing mainHash index value =>
      if s.Loads i mainHash (s.mask mainHash index) probedKey then
        if probedKey=none then some (s.goto i (.claiming mainHash (s.mask mainHash index) value))
        else some ((s.learn i mainHash (s.mask mainHash index)).goto i
          (.placing mainHash (s.mask mainHash index+1) value))
      else none
    | _ => none
  | .draw i =>
    match s.phase i with
    | .counting mainHash =>
      some {s.goto i (.deciding mainHash (1+s.count)) with count := s.count+1}
    | _ => none
  | .lock i =>
    match s.phase i with
    | .deciding mainHash newCount =>
      if s.capacity mainHash/2 ≤ newCount ∧ s.resizing=false then
        some {s.goto i (.reloading newCount) with resizing := true}
      else some (s.goto i (s.accept mainHash newCount))
    | _ => none
  | .reload i =>
    match s.phase i with
    | .reloading newCount =>
      some ((s.see i s.implicitProducerHash).goto i
        (if s.capacity s.implicitProducerHash/2 ≤ newCount then
          .allocating s.implicitProducerHash newCount
        else .unlocking s.implicitProducerHash newCount))
    | _ => none
  | .allocate i =>
    match s.phase i with
    | .allocating mainHash newCount =>
      let newHash := s.implicitProducerHash+1
      some {(s.see i newHash).goto i (.unlocking newHash newCount) with
        implicitProducerHash := newHash
        capacity := Function.update s.capacity newHash
          (widen newCount (newCount+1) (s.capacity mainHash*2))
        prev := Function.update s.prev newHash (some mainHash)
        key := Function.update s.key newHash fun _ => none
        value := Function.update s.value newHash fun _ => none}
    | _ => none
  | .allocateFails i =>
    match s.phase i with
    | .allocating _ _ => some {s.goto i .undoing with count := s.count-1}
    | _ => none
  | .clear i =>
    match s.phase i with
    | .undoing => some {s.finish i none with resizing := false}
    | .unlocking mainHash newCount =>
      some {s.goto i (s.accept mainHash newCount) with resizing := false}
    | _ => none
  | .loadTail i v =>
    if s.Seen v then
      match s.phase i with
      | .listing demand => some (s.goto i (walk demand v))
      | .chaining demand producer => some (s.goto i (.hooking demand producer v))
      | _ => none
    else none
  | .loadInactive i inactive =>
    match s.phase i with
    | .walking demand ptr =>
      if inactive=true ∧ s.isExplicit ptr=demand.isExplicit then
        some (s.goto i (.grabbing demand ptr))
      else some (s.goto i (walk demand (s.next ptr)))
    | _ => none
  | .grab i =>
    match s.phase i with
    | .grabbing demand ptr =>
      if s.inactive ptr=true then
        let s' := {s with inactive := Function.update s.inactive ptr false}
        match demand with
        | .thread mainHash => some (s'.goto i (.refunding mainHash ptr))
        | .token => some (s'.supply hashedId i ptr .token)
      else some (s.goto i (walk demand (s.next ptr)))
    | _ => none
  | .refund i =>
    match s.phase i with
    | .refunding mainHash producer =>
      some {s.supply hashedId i producer (.thread mainHash) with count := s.count-1}
    | .failing => some {s.finish i none with count := s.count-1}
    | _ => none
  | .create i =>
    match s.phase i with
    | .creating demand =>
      some {s.goto i (.chaining demand s.created) with
        created := s.created+1
        isExplicit := Function.update s.isExplicit s.created demand.isExplicit
        inactive := Function.update s.inactive s.created false
        next := Function.update s.next s.created none}
    | _ => none
  | .createFails i =>
    match s.phase i with
    | .creating (.thread _) => some (s.goto i .failing)
    | .creating .token => some (s.goto i .outside)
    | _ => none
  | .hook i =>
    match s.phase i with
    | .hooking demand producer prevTail =>
      if s.producerListTail=prevTail then
        some ((s.push producer prevTail).supply hashedId i producer demand)
      else none
    | _ => none
  | .hookFails i v =>
    if s.Seen v then
      match s.phase i with
      | .hooking demand producer prevTail =>
        some {s.goto i (.hooking demand producer v) with
          next := Function.update s.next producer prevTail}
      | _ => none
    else none
  | .claim i =>
    match s.phase i with
    | .claiming mainHash k value =>
      if s.key mainHash k=none then
        some {(s.learn i mainHash k).goto i (.storing mainHash k value) with
          key := Function.update s.key mainHash (Function.update (s.key mainHash) k (some i))}
      else some ((s.learn i mainHash k).goto i (.placing mainHash (k+1) value))
    | _ => none
  | .store i =>
    match s.phase i with
    | .storing mainHash k value =>
      some {s.finish i value with
        value := Function.update s.value mainHash (Function.update (s.value mainHash) k value)}
    | _ => none
  | .construct i => if s.phase i=.outside then some (s.goto i (.listing .token)) else none
  | .destroy i producer =>
    if s.phase i=.outside ∧ 0 < s.tokens producer then
      some {s with
        tokens := Function.update s.tokens producer (s.tokens producer-1)
        inactive := Function.update s.inactive producer true}
    else none

/-- What a step does, branch by branch. -/
inductive Effect (hashedId : ι → ℕ) (s : State ι) : Act ι → State ι → Prop
  /-- A call begins. -/
  | enters {i : ι} (hi : s.phase i=.outside) : Effect hashedId s (.enter i) (s.goto i .entering)
  /-- The search begins in the first table. -/
  | starts {i : ι} {table : ℕ} (hi : s.phase i=.entering) (hlatest : s.latest i ≤ table)
      (hhash : table ≤ s.implicitProducerHash) : Effect hashedId s (.loadHash i table)
        ((s.see i table).goto i (.probing table table (hashedId i)))
  /-- The thread has waited and loads the first table again. -/
  | restarts {i : ι} {table newCount : ℕ} (hi : s.phase i=.waiting newCount)
      (hlatest : s.latest i ≤ table) (hhash : table ≤ s.implicitProducerHash) :
      Effect hashedId s (.loadHash i table) ((s.see i table).goto i (.deciding table newCount))
  /-- Its key is in the first table. -/
  | found {i : ι} {hash index : ℕ} {probedKey : Option ι} (hi : s.phase i=.probing hash hash index)
      (hkey : s.key hash (s.mask hash index)=some i) : Effect hashedId s (.loadKey i probedKey)
        (s.finish i (s.value hash (s.mask hash index)))
  /-- Its key is in an older table. -/
  | foundBelow {i : ι} {mainHash hash index : ℕ} {probedKey : Option ι}
      (hi : s.phase i=.probing mainHash hash index) (hbelow : hash≠mainHash)
      (hkey : s.key hash (s.mask hash index)=some i) : Effect hashedId s (.loadKey i probedKey)
        (s.goto i (.placing mainHash (hashedId i) (s.value hash (s.mask hash index))))
  /-- It is in none. -/
  | missed {i : ι} {mainHash hash index : ℕ} {probedKey : Option ι}
      (hi : s.phase i=.probing mainHash hash index) (hprev : s.prev hash=none)
      (hloads : s.Loads i hash (s.mask hash index) none) :
      Effect hashedId s (.loadKey i probedKey) (s.goto i (.counting mainHash))
  /-- It is not in this one. -/
  | descends {i : ι} {mainHash hash index older : ℕ} {probedKey : Option ι}
      (hi : s.phase i=.probing mainHash hash index) (hprev : s.prev hash=some older)
      (hloads : s.Loads i hash (s.mask hash index) none) : Effect hashedId s (.loadKey i probedKey)
        (s.goto i (.probing mainHash older (hashedId i)))
  /-- The slot has another key. -/
  | passes {i : ι} {mainHash hash index : ℕ} {probedKey : Option ι}
      (hi : s.phase i=.probing mainHash hash index) (hset : s.key hash (s.mask hash index)≠none)
      (hother : s.key hash (s.mask hash index)≠some i) : Effect hashedId s (.loadKey i probedKey)
        ((s.learn i hash (s.mask hash index)).goto i
          (.probing mainHash hash (s.mask hash index+1)))
  /-- A slot which looks free. -/
  | aims {i : ι} {mainHash index : ℕ} {value : Option ℕ} {probedKey : Option ι}
      (hi : s.phase i=.placing mainHash index value) : Effect hashedId s (.loadKey i probedKey)
        (s.goto i (.claiming mainHash (s.mask mainHash index) value))
  /-- A slot which is set. -/
  | avoids {i : ι} {mainHash index : ℕ} {value : Option ℕ} {probedKey : Option ι}
      (hi : s.phase i=.placing mainHash index value)
      (hset : s.key mainHash (s.mask mainHash index)≠none) :
      Effect hashedId s (.loadKey i probedKey)
        ((s.learn i mainHash (s.mask mainHash index)).goto i
          (.placing mainHash (s.mask mainHash index+1) value))
  /-- The thread is counted. -/
  | draws {i : ι} {mainHash : ℕ} (hi : s.phase i=.counting mainHash) : Effect hashedId s (.draw i)
      {s.goto i (.deciding mainHash (1+s.count)) with count := s.count+1}
  /-- It sets the flag. -/
  | locks {i : ι} {mainHash newCount : ℕ} (hi : s.phase i=.deciding mainHash newCount)
      (hfree : s.resizing=false) :
      Effect hashedId s (.lock i) {s.goto i (.reloading newCount) with resizing := true}
  /-- It does not want to, or it is set. -/
  | accepts {i : ι} {mainHash newCount : ℕ} (hi : s.phase i=.deciding mainHash newCount)
      (hset : s.capacity mainHash/2 ≤ newCount → s.resizing=true) :
      Effect hashedId s (.lock i) (s.goto i (s.accept mainHash newCount))
  /-- The first table is too small. -/
  | small {i : ι} {newCount : ℕ} (hi : s.phase i=.reloading newCount) :
      Effect hashedId s (.reload i) ((s.see i s.implicitProducerHash).goto i
        (.allocating s.implicitProducerHash newCount))
  /-- It was replaced meanwhile. -/
  | large {i : ι} {newCount : ℕ} (hi : s.phase i=.reloading newCount)
      (hlt : newCount < s.capacity s.implicitProducerHash/2) :
      Effect hashedId s (.reload i) ((s.see i s.implicitProducerHash).goto i
        (.unlocking s.implicitProducerHash newCount))
  /-- A new table. -/
  | allocates {i : ι} {mainHash newCount : ℕ} (hi : s.phase i=.allocating mainHash newCount) :
      Effect hashedId s (.allocate i) {(s.see i (s.implicitProducerHash+1)).goto i
          (.unlocking (s.implicitProducerHash+1) newCount) with
        implicitProducerHash := s.implicitProducerHash+1
        capacity := Function.update s.capacity (s.implicitProducerHash+1)
          (widen newCount (newCount+1) (s.capacity mainHash*2))
        prev := Function.update s.prev (s.implicitProducerHash+1) (some mainHash)
        key := Function.update s.key (s.implicitProducerHash+1) fun _ => none
        value := Function.update s.value (s.implicitProducerHash+1) fun _ => none}
  /-- None. -/
  | unable {i : ι} {mainHash newCount : ℕ} (hi : s.phase i=.allocating mainHash newCount) :
      Effect hashedId s (.allocateFails i) {s.goto i .undoing with count := s.count-1}
  /-- The thread clears the flag and returns none. -/
  | undoes {i : ι} (hi : s.phase i=.undoing) :
      Effect hashedId s (.clear i) {s.finish i none with resizing := false}
  /-- It clears the flag and goes on. -/
  | unlocks {i : ι} {mainHash newCount : ℕ} (hi : s.phase i=.unlocking mainHash newCount) :
      Effect hashedId s (.clear i) {s.goto i (s.accept mainHash newCount) with resizing := false}
  /-- It looks for a producer which was left behind. -/
  | lists {i : ι} {demand : Demand} {v : Option ℕ} (hi : s.phase i=.listing demand)
      (hseen : s.Seen v) : Effect hashedId s (.loadTail i v) (s.goto i (walk demand v))
  /-- It wants to put a new one on the list. -/
  | chains {i : ι} {demand : Demand} {producer : ℕ} {v : Option ℕ}
      (hi : s.phase i=.chaining demand producer) :
      Effect hashedId s (.loadTail i v) (s.goto i (.hooking demand producer v))
  /-- A producer which looks inactive, of the kind it looks for. -/
  | fits {i : ι} {demand : Demand} {ptr : ℕ} {inactive : Bool} (hi : s.phase i=.walking demand ptr)
      (hkind : s.isExplicit ptr=demand.isExplicit) :
      Effect hashedId s (.loadInactive i inactive) (s.goto i (.grabbing demand ptr))
  /-- Another one. -/
  | skips {i : ι} {demand : Demand} {ptr : ℕ} {inactive : Bool}
      (hi : s.phase i=.walking demand ptr) :
      Effect hashedId s (.loadInactive i inactive) (s.goto i (walk demand (s.next ptr)))
  /-- A thread takes it. -/
  | recycles {i : ι} {mainHash ptr : ℕ} (hi : s.phase i=.grabbing (.thread mainHash) ptr)
      (hinactive : s.inactive ptr=true) : Effect hashedId s (.grab i)
        (State.goto {s with inactive := Function.update s.inactive ptr false} i
          (.refunding mainHash ptr))
  /-- A token takes it. -/
  | reuses {i : ι} {ptr : ℕ} (hi : s.phase i=.grabbing .token ptr)
      (hinactive : s.inactive ptr=true) :
      Effect hashedId s (.grab i) (State.supply hashedId
        {s with inactive := Function.update s.inactive ptr false} i ptr .token)
  /-- Another one has taken it. -/
  | misses {i : ι} {demand : Demand} {ptr : ℕ} (hi : s.phase i=.grabbing demand ptr) :
      Effect hashedId s (.grab i) (s.goto i (walk demand (s.next ptr)))
  /-- The thread is not counted, as its producer was. -/
  | refunds {i : ι} {mainHash producer : ℕ} (hi : s.phase i=.refunding mainHash producer) :
      Effect hashedId s (.refund i)
        {s.supply hashedId i producer (.thread mainHash) with count := s.count-1}
  /-- It is not counted and returns none. -/
  | fails {i : ι} (hi : s.phase i=.failing) :
      Effect hashedId s (.refund i) {s.finish i none with count := s.count-1}
  /-- A new producer. -/
  | creates {i : ι} {demand : Demand} (hi : s.phase i=.creating demand) :
      Effect hashedId s (.create i)
      {s.goto i (.chaining demand s.created) with
        created := s.created+1
        isExplicit := Function.update s.isExplicit s.created demand.isExplicit
        inactive := Function.update s.inactive s.created false
        next := Function.update s.next s.created none}
  /-- None for a thread. -/
  | lacks {i : ι} {mainHash : ℕ} (hi : s.phase i=.creating (.thread mainHash)) :
      Effect hashedId s (.createFails i) (s.goto i .failing)
  /-- None for a token. -/
  | invalid {i : ι} (hi : s.phase i=.creating .token) :
      Effect hashedId s (.createFails i) (s.goto i .outside)
  /-- The new producer is put on the list, for a thread. -/
  | gives {i : ι} {mainHash producer : ℕ}
      (hi : s.phase i=.hooking (.thread mainHash) producer s.producerListTail) :
      Effect hashedId s (.hook i) ((s.push producer s.producerListTail).goto i
        (.placing mainHash (hashedId i) (some producer)))
  /-- For a token. -/
  | entrusts {i : ι} {producer : ℕ} (hi : s.phase i=.hooking .token producer s.producerListTail) :
      Effect hashedId s (.hook i)
        ((s.push producer s.producerListTail).supply hashedId i producer .token)
  /-- The exchange failed. -/
  | relinks {i : ι} {demand : Demand} {producer : ℕ} {prevTail v : Option ℕ}
      (hi : s.phase i=.hooking demand producer prevTail) : Effect hashedId s (.hookFails i v)
        {s.goto i (.hooking demand producer v) with
          next := Function.update s.next producer prevTail}
  /-- The slot was free. -/
  | claims {i : ι} {mainHash k : ℕ} {value : Option ℕ} (hi : s.phase i=.claiming mainHash k value)
      (hfree : s.key mainHash k=none) : Effect hashedId s (.claim i)
        {(s.learn i mainHash k).goto i (.storing mainHash k value) with
          key := Function.update s.key mainHash
            (Function.update (s.key mainHash) k (some i))}
  /-- It was not. -/
  | loses {i : ι} {mainHash k : ℕ} {value : Option ℕ} (hi : s.phase i=.claiming mainHash k value)
      (hset : s.key mainHash k≠none) : Effect hashedId s (.claim i)
        ((s.learn i mainHash k).goto i (.placing mainHash (k+1) value))
  /-- The thread returns its producer. -/
  | stores {i : ι} {mainHash k : ℕ} {value : Option ℕ} (hi : s.phase i=.storing mainHash k value) :
      Effect hashedId s (.store i) {s.finish i value with
        value := Function.update s.value mainHash
          (Function.update (s.value mainHash) k value)}
  /-- A token wants a producer. -/
  | constructs {i : ι} (hi : s.phase i=.outside) :
      Effect hashedId s (.construct i) (s.goto i (.listing .token))
  /-- A token leaves its producer behind. -/
  | destroys {i : ι} {producer : ℕ} (hi : s.phase i=.outside) (htokens : 0 < s.tokens producer) :
      Effect hashedId s (.destroy i producer) {s with
        tokens := Function.update s.tokens producer (s.tokens producer-1)
        inactive := Function.update s.inactive producer true}

/-- Every step has one of these effects. -/
theorem next_effect {hashedId : ι → ℕ} {s s' : State ι} {a : Act ι}
    (hn : next hashedId s a=some s') : Effect hashedId s a s' := by
  cases a with
  | enter i =>
    simp only [next] at hn
    split_ifs at hn with hi
    cases hn
    exact .enters hi
  | loadHash i table =>
    simp only [next] at hn
    split_ifs at hn with hle
    split at hn <;> cases hn
    · rename_i hi
      exact .starts hi hle.1 hle.2
    · rename_i hi
      exact .restarts hi hle.1 hle.2
  | loadKey i probedKey =>
    simp only [next] at hn
    split at hn <;> try cases hn
    · rename_i mainHash hash index hi
      split_ifs at hn with hloads hself hsame hnone
      · rw [hself] at hloads
        cases hn
        subst hsame
        exact .found hi (hloads.resolve_right fun hc => Option.some_ne_none i hc.1).symm
      · rw [hself] at hloads
        cases hn
        exact .foundBelow hi hsame
          (hloads.resolve_right fun hc => Option.some_ne_none i hc.1).symm
      · rw [hnone] at hloads
        split at hn <;> cases hn
        · rename_i hprev
          exact .missed hi hprev hloads
        · rename_i hprev
          exact .descends hi hprev hloads
      · cases hn
        have hkey := hloads.resolve_right fun hc => hnone hc.1
        rw [hkey] at hself hnone
        exact .passes hi hnone hself
    · rename_i hi
      split_ifs at hn with hloads hnone
      · cases hn
        exact .aims hi
      · cases hn
        have hkey := hloads.resolve_right fun hc => hnone hc.1
        rw [hkey] at hnone
        exact .avoids hi hnone
  | draw i =>
    simp only [next] at hn
    split at hn <;> cases hn
    rename_i hi
    exact .draws hi
  | lock i =>
    simp only [next] at hn
    split at hn <;> try cases hn
    rename_i hi
    split_ifs at hn with hlock
    · cases hn
      exact .locks hi hlock.2
    · cases hn
      rw [not_and,Bool.not_eq_false] at hlock
      exact .accepts hi hlock
  | reload i =>
    simp only [next] at hn
    split at hn <;> cases hn
    rename_i hi
    split_ifs with hsmall
    · exact .small hi
    · exact .large hi (Nat.lt_of_not_le hsmall)
  | allocate i =>
    simp only [next] at hn
    split at hn <;> cases hn
    rename_i hi
    exact .allocates hi
  | allocateFails i =>
    simp only [next] at hn
    split at hn <;> cases hn
    rename_i hi
    exact .unable hi
  | clear i =>
    simp only [next] at hn
    split at hn <;> cases hn
    · rename_i hi
      exact .undoes hi
    · rename_i hi
      exact .unlocks hi
  | loadTail i v =>
    simp only [next] at hn
    split_ifs at hn with hseen
    split at hn <;> cases hn
    · rename_i hi
      exact .lists hi hseen
    · rename_i hi
      exact .chains hi
  | loadInactive i inactive =>
    simp only [next] at hn
    split at hn <;> try cases hn
    rename_i hi
    split_ifs at hn with hfits
    · cases hn
      exact .fits hi hfits.2
    · cases hn
      exact .skips hi
  | grab i =>
    simp only [next] at hn
    split at hn <;> try cases hn
    rename_i demand ptr hi
    split_ifs at hn with hinactive
    · cases demand with
      | thread mainHash =>
        cases hn
        exact .recycles hi hinactive
      | token =>
        cases hn
        exact .reuses hi hinactive
    · cases hn
      exact .misses hi
  | refund i =>
    simp only [next] at hn
    split at hn <;> cases hn
    · rename_i hi
      exact .refunds hi
    · rename_i hi
      exact .fails hi
  | create i =>
    simp only [next] at hn
    split at hn <;> cases hn
    rename_i hi
    exact .creates hi
  | createFails i =>
    simp only [next] at hn
    split at hn <;> cases hn
    · rename_i hi
      exact .lacks hi
    · rename_i hi
      exact .invalid hi
  | hook i =>
    simp only [next] at hn
    split at hn <;> try cases hn
    rename_i demand producer prevTail hi
    split_ifs at hn with htail
    cases hn
    subst htail
    cases demand with
    | thread mainHash => exact .gives hi
    | token => exact .entrusts hi
  | hookFails i v =>
    simp only [next] at hn
    split_ifs at hn
    split at hn <;> cases hn
    rename_i hi
    exact .relinks hi
  | claim i =>
    simp only [next] at hn
    split at hn <;> try cases hn
    rename_i hi
    split_ifs at hn with hfree
    · cases hn
      exact .claims hi hfree
    · cases hn
      exact .loses hi hfree
  | store i =>
    simp only [next] at hn
    split at hn <;> cases hn
    rename_i hi
    exact .stores hi
  | construct i =>
    simp only [next] at hn
    split_ifs at hn with hi
    cases hn
    exact .constructs hi
  | destroy i producer =>
    simp only [next] at hn
    split_ifs at hn with hi
    cases hn
    exact .destroys hi.1 hi.2

/-- The producer which a thread is about to put on the list, and whether it is for
a token. -/
def Phase.charge : Phase → Option (ℕ × Bool)
  | .chaining demand producer | .hooking demand producer _ => some (producer,demand.isExplicit)
  | _ => none

/-- The producer at which the loop over the list stands. -/
def Phase.visits : Phase → Option ℕ
  | .walking _ ptr | .grabbing _ ptr => some ptr
  | _ => none

/-- The thread is counted and has no producer yet. -/
def Phase.counted : Phase → Bool
  | .deciding _ _ | .reloading _ | .allocating _ _ | .unlocking _ _ | .waiting _ | .failing => true
  | .listing demand | .walking demand _ | .grabbing demand _ | .creating demand
  | .chaining demand _ | .hooking demand _ _ => !demand.isExplicit
  | _ => false

/-- The thread has set the flag. -/
def Phase.locks : Phase → Bool
  | .reloading _ | .allocating _ _ | .undoing | .unlocking _ _ => true
  | _ => false

/-- The thread has its producer and may not be in a table yet. -/
def Phase.placed : Phase → Bool
  | .placing _ _ _ | .claiming _ _ _ => true
  | _ => false

section Invariant

variable (hashedId : ι → ℕ)

/-- The thread has no key in the table. -/
def State.Absent (s : State ι) (i : ι) (table : ℕ) : Prop := ∀ k,s.key table k≠some i

/-- The slot which a search of the thread has come to; it knows all before to be
set by others. -/
def State.At (s : State ι) (i : ι) (table k : ℕ) : Prop :=
  ∃ d,k=(hashedId i+d)%s.capacity table ∧
    Passed (fun l => s.known i table l=true ∧ s.key table l≠some i) (s.capacity table)
      (hashedId i) d

/-- What a thread relies on while it gets a producer for a table. -/
def Demand.Fits (s : State ι) (i : ι) (own : Option ℕ) (rank : ℕ) : Demand → Prop
  | .thread mainHash => own=none ∧ mainHash ≤ s.latest i ∧ rank < s.room mainHash
  | .token => True

/-- What a thread relies on, with its own producer and its rank in the count. -/
def Phase.Fits (s : State ι) (i : ι) (own : Option ℕ) (rank : ℕ) : Phase → Prop
  | .outside | .entering => True
  | .probing mainHash hash index => mainHash=s.latest i ∧ hash ≤ mainHash ∧
      (∀ table,hash < table → table ≤ mainHash → s.Absent i table) ∧
        s.At hashedId i hash (s.mask hash index)
  | .counting mainHash => own=none ∧ mainHash ≤ s.latest i
  | .deciding mainHash newCount => own=none ∧ mainHash ≤ s.latest i ∧ rank ≤ newCount
  | .reloading newCount | .waiting newCount => own=none ∧ rank ≤ newCount
  | .allocating mainHash newCount =>
    own=none ∧ mainHash=s.implicitProducerHash ∧ rank ≤ newCount
  | .unlocking mainHash newCount =>
    own=none ∧ mainHash ≤ s.latest i ∧ rank ≤ newCount ∧ newCount < s.capacity mainHash/2
  | .undoing | .failing => own=none
  | .listing demand | .walking demand _ | .grabbing demand _ | .creating demand
  | .chaining demand _ | .hooking demand _ _ => demand.Fits s i own rank
  | .refunding _ _ => False
  | .placing mainHash index value => value=own ∧ own≠none ∧ mainHash ≤ s.latest i ∧
      rank < s.room mainHash ∧ s.Absent i mainHash ∧
      s.At hashedId i mainHash (s.mask mainHash index)
  | .claiming mainHash k value => value=own ∧ own≠none ∧ mainHash ≤ s.latest i ∧
      rank < s.room mainHash ∧ s.Absent i mainHash ∧ s.At hashedId i mainHash k
  | .storing mainHash k value => value=own ∧ s.key mainHash k=some i

/-- The tables, with the counted threads, latest first, and every thread's
producer. -/
structure Tables (ranked : List ι) (owned : ι → Option ℕ) (s : State ι) : Prop where
  /-- Capacities are powers of two. -/
  power : ∀ table ≤ s.implicitProducerHash,∃ b,s.capacity table=2^b
  /-- New tables are larger. -/
  grows : ∀ table < s.implicitProducerHash,s.capacity table ≤ s.capacity (table+1)
  /-- The first table is the last of the list. -/
  prev_zero : s.prev 0=none
  /-- Every other one has the one before it as the next. -/
  prev_succ : ∀ table < s.implicitProducerHash,s.prev (table+1)=some table
  /-- Threads know existing tables. -/
  latest : ∀ i,s.latest i ≤ s.implicitProducerHash
  /-- Keys which are known to be set are set. -/
  known : ∀ {i table k},s.known i table k=true → s.key table k≠none
  /-- A thread is in tables it knows, is counted, and knows all slots to be set
  which it passes on the way to its own. -/
  key : ∀ {i table k},s.key table k=some i → table ≤ s.latest i ∧ i∈ranked ∧
    rank ranked i < s.room table ∧ ∃ d,k=(hashedId i+d)%s.capacity table ∧
      Passed (fun l => s.known i table l=true) (s.capacity table) (hashedId i) (d+1)
  /-- It is in a table only once. -/
  unique : ∀ {i table k l},s.key table k=some i → s.key table l=some i → k=l
  /-- The value is its producer, once it is stored. -/
  value : ∀ {i table k},s.key table k=some i → owned i≠none ∧
    (s.value table k=owned i ∨ s.phase i=.storing table k (owned i))

/-- The producers, with every thread's own and the list of all. -/
structure Supply (owned : ι → Option ℕ) (list : List ℕ) (s : State ι) : Prop where
  /-- The list is linked. -/
  chain : Chain s.next s.producerListTail list
  /-- It has no producer twice. -/
  nodup : list.Nodup
  /-- It has grown by one producer after the other. -/
  history : s.producerListTail::s.past=list.map some++[none]
  /-- Producers on the list exist. -/
  made : ∀ {p},p∈list → p < s.created
  /-- A thread's own producer is on the list and is not for tokens. -/
  own : ∀ {i p},owned i=some p → p∈list ∧ s.isExplicit p=false
  /-- No two threads have the same. -/
  injective : ∀ {i j p},owned i=some p → owned j=some p → i=j
  /-- A producer left behind was for tokens, and no token has it. -/
  inactive : ∀ {p},s.inactive p=true → p∈list ∧ s.isExplicit p=true ∧ s.tokens p=0
  /-- A producer which a token has is for tokens, and no other one has it. -/
  tokens : ∀ {p},0 < s.tokens p →
    p∈list ∧ s.isExplicit p=true ∧ s.tokens p=1
  /-- A new producer is not on the list. -/
  charge : ∀ {i p b},(s.phase i).charge=some (p,b) → p < s.created ∧ p∉list ∧ s.isExplicit p=b
  /-- Only one thread has it. -/
  alone : ∀ {i j p b c},(s.phase i).charge=some (p,b) → (s.phase j).charge=some (p,c) → i=j
  /-- The loop over the list stands on the list. -/
  visits : ∀ {i p},(s.phase i).visits=some p → p∈list
  /-- A producer which a thread is about to take is of the kind it looks for. -/
  grabs : ∀ {i demand p},s.phase i=.grabbing demand p → s.isExplicit p=demand.isExplicit

/-- Everything which holds in between the steps. -/
structure Sound (ranked : List ι) (owned : ι → Option ℕ) (list : List ℕ) (s : State ι) :
    Prop where
  /-- The tables. -/
  tables : Tables hashedId ranked owned s
  /-- The producers. -/
  supply : Supply owned list s
  /-- The threads. -/
  fits : ∀ i,(s.phase i).Fits hashedId s i (owned i) (rank ranked i)
  /-- A thread which has a producer is in a table, or about to be. -/
  settled : ∀ i,owned i≠none → (s.phase i).placed=true ∨ ∃ table k,s.key table k=some i
  /-- Who is counted. -/
  counted : ∀ i,i∈ranked ↔ owned i≠none ∨ (s.phase i).counted=true
  /-- Nobody is counted twice. -/
  nodup : ranked.Nodup
  /-- The count. -/
  count : s.count=ranked.length
  /-- The flag is set while a thread is in the block. -/
  flag : s.resizing=true ↔ ∃ i,(s.phase i).locks=true
  /-- Only one thread is. -/
  sole : ∀ {i j},(s.phase i).locks=true → (s.phase j).locks=true → i=j
  /-- What was returned. -/
  returned : ∀ {i p},(i,some p)∈s.returned → owned i=some p

end Invariant

section Frames

variable {hashedId : ι → ℕ} {ranked ranked' : List ι} {owned owned' : ι → Option ℕ}
  {list list' : List ℕ} {s s' : State ι} {i j : ι}

omit [DecidableEq ι] in
/-- A search stays where it is. -/
theorem State.At.kept {table k : ℕ} (h : s.At hashedId i table k)
    (hcapacity : s'.capacity table=s.capacity table)
    (hkey : ∀ k,s'.key table k=some i ↔ s.key table k=some i)
    (hknown : ∀ k,s.known i table k=true → s'.known i table k=true) :
    s'.At hashedId i table k := by
  obtain ⟨d,hk,hpassed⟩ := h
  refine ⟨d,?_,?_⟩
  · rw [hcapacity]
    exact hk
  · rw [hcapacity]
    exact hpassed.mono fun l hl => ⟨hknown l hl.1,fun hc => hl.2 ((hkey l).mp hc)⟩

omit [DecidableEq ι] in
/-- What a thread relies on outlives the steps of others, and the key it has just
read. -/
theorem Phase.Fits.kept {p : Phase} {own : Option ℕ} {r r' : ℕ} (h : p.Fits hashedId s i own r)
    (hhash : p.locks=true → s'.implicitProducerHash=s.implicitProducerHash)
    (hcapacity : ∀ table ≤ s.latest i,s'.capacity table=s.capacity table)
    (hkey : ∀ table k,s'.key table k=some i ↔ s.key table k=some i)
    (hknown : ∀ table k,s.known i table k=true → s'.known i table k=true)
    (hlatest : s'.latest i=s.latest i) (hrank : r' ≤ r) : p.Fits hashedId s' i own r' := by
  have hroom : ∀ table ≤ s.latest i,s'.room table=s.room table := by
    intro table htable
    rw [State.room,State.room,hcapacity table htable]
  have hmask : ∀ table ≤ s.latest i,∀ index,s'.mask table index=s.mask table index := by
    intro table htable index
    rw [State.mask,State.mask,hcapacity table htable]
  have habsent : ∀ table,s.Absent i table → s'.Absent i table :=
    fun table habsent k hk => habsent k ((hkey table k).mp hk)
  have hdemand : ∀ demand : Demand,demand.Fits s i own r → demand.Fits s' i own r' := by
    intro demand hd
    cases demand with
    | thread mainHash =>
      obtain ⟨hown,hmain,hlt⟩ := hd
      refine ⟨hown,?_,?_⟩
      · rwa [hlatest]
      · rw [hroom mainHash hmain]
        exact hrank.trans_lt hlt
    | token => trivial
  cases p with
  | outside => trivial
  | entering => trivial
  | probing mainHash hash index =>
    obtain ⟨hmain,hhash,hnot,hat⟩ := h
    have hle : hash ≤ s.latest i := hhash.trans hmain.le
    refine ⟨hmain.trans hlatest.symm,hhash,
      fun table hlt hle => habsent table (hnot table hlt hle),?_⟩
    rw [hmask hash hle]
    exact hat.kept (hcapacity hash hle) (hkey hash) (hknown hash)
  | counting mainHash => exact ⟨h.1,by rw [hlatest]; exact h.2⟩
  | deciding mainHash newCount =>
    exact ⟨h.1,by rw [hlatest]; exact h.2.1,hrank.trans h.2.2⟩
  | reloading newCount => exact ⟨h.1,hrank.trans h.2⟩
  | allocating mainHash newCount =>
    exact ⟨h.1,h.2.1.trans (hhash rfl).symm,hrank.trans h.2.2⟩
  | undoing => exact h
  | unlocking mainHash newCount =>
    obtain ⟨hown,hmain,hle,hlt⟩ := h
    refine ⟨hown,by rwa [hlatest],hrank.trans hle,?_⟩
    rwa [hcapacity mainHash hmain]
  | waiting newCount => exact ⟨h.1,hrank.trans h.2⟩
  | listing demand => exact hdemand demand h
  | walking demand ptr => exact hdemand demand h
  | grabbing demand ptr => exact hdemand demand h
  | refunding mainHash producer => exact h
  | creating demand => exact hdemand demand h
  | failing => exact h
  | chaining demand producer => exact hdemand demand h
  | hooking demand producer prevTail => exact hdemand demand h
  | placing mainHash index value =>
    obtain ⟨hvalue,hown,hmain,hlt,hnot,hat⟩ := h
    refine ⟨hvalue,hown,by rwa [hlatest],?_,habsent mainHash hnot,?_⟩
    · rw [hroom mainHash hmain]
      exact hrank.trans_lt hlt
    · rw [hmask mainHash hmain]
      exact hat.kept (hcapacity mainHash hmain) (hkey mainHash) (hknown mainHash)
  | claiming mainHash k value =>
    obtain ⟨hvalue,hown,hmain,hlt,hnot,hat⟩ := h
    refine ⟨hvalue,hown,by rwa [hlatest],?_,habsent mainHash hnot,?_⟩
    · rw [hroom mainHash hmain]
      exact hrank.trans_lt hlt
    · exact hat.kept (hcapacity mainHash hmain) (hkey mainHash) (hknown mainHash)
  | storing mainHash k value => exact ⟨h.1,(hkey mainHash k).mpr h.2⟩

omit [DecidableEq ι] in
/-- The tables are untouched. -/
structure SameTables (s s' : State ι) : Prop where
  /-- The first one. -/
  hash : s'.implicitProducerHash=s.implicitProducerHash
  /-- The capacities. -/
  capacity : s'.capacity=s.capacity
  /-- The links. -/
  prev : s'.prev=s.prev
  /-- The keys. -/
  key : s'.key=s.key
  /-- The values. -/
  value : s'.value=s.value
  /-- Which keys are known. -/
  known : s'.known=s.known
  /-- Which tables are known. -/
  latest : s'.latest=s.latest

omit [DecidableEq ι] in
/-- The producers are untouched. -/
structure SameProducers (s s' : State ι) : Prop where
  /-- How many there are. -/
  created : s'.created=s.created
  /-- Which are for tokens. -/
  isExplicit : s'.isExplicit=s.isExplicit
  /-- Which are left behind. -/
  inactive : s'.inactive=s.inactive
  /-- The links. -/
  next : s'.next=s.next
  /-- The end of the list. -/
  tail : s'.producerListTail=s.producerListTail
  /-- Its history. -/
  past : s'.past=s.past
  /-- The tokens. -/
  tokens : s'.tokens=s.tokens

omit [DecidableEq ι] in
/-- What a thread relies on is in the tables. -/
theorem Phase.Fits.of_sameTables {p : Phase} {own : Option ℕ} {r : ℕ}
    (h : p.Fits hashedId s i own r)
    (hsame : SameTables s s') : p.Fits hashedId s' i own r := by
  refine h.kept (fun _ => hsame.hash) ?_ ?_ ?_ (by rw [hsame.latest]) le_rfl
  · intro table _
    rw [hsame.capacity]
  · intro table k
    rw [hsame.key]
  · intro table k hk
    rw [hsame.known]
    exact hk

/-- A step which does not touch the tables may count or discount a thread which is
in none, and give it a producer. -/
theorem Tables.turn (h : Tables hashedId ranked owned s) (hsame : SameTables s s')
    (hphase : ∀ j,j≠i → s'.phase j=s.phase j)
    (hstoring : ∀ table k value,s.phase i≠.storing table k value)
    (hothers : ∀ j,j≠i → owned' j=owned j ∧ (j∈ranked → j∈ranked') ∧
      rank ranked' j ≤ rank ranked j)
    (hown : owned i≠none → owned' i=owned i ∧ ranked'=ranked) :
    Tables hashedId ranked' owned' s' := by
  obtain ⟨hhash,hcapacity,hprev,hkey,hvalue,hknown,hlatest⟩ := hsame
  refine ⟨?_,?_,?_,?_,?_,?_,fun {j table k} hj => ?_,?_,fun {j table k} hj => ?_⟩
  · rw [hhash,hcapacity]
    exact h.power
  · rw [hhash,hcapacity]
    exact h.grows
  · rw [hprev]
    exact h.prev_zero
  · rw [hhash,hprev]
    exact h.prev_succ
  · rw [hhash,hlatest]
    exact h.latest
  · rw [hknown,hkey]
    exact h.known
  · rw [hkey] at hj
    obtain ⟨hle,hmem,hlt,hpath⟩ := h.key hj
    simp only [hlatest,State.room,hcapacity,hknown]
    by_cases hij : j=i
    · subst hij
      obtain ⟨-,rfl⟩ := hown (h.value hj).1
      exact ⟨hle,hmem,hlt,hpath⟩
    · obtain ⟨-,hmem',hrank⟩ := hothers j hij
      exact ⟨hle,hmem' hmem,hrank.trans_lt hlt,hpath⟩
  · rw [hkey]
    exact h.unique
  · rw [hkey] at hj
    rw [hvalue]
    obtain ⟨hne,hor⟩ := h.value hj
    by_cases hij : j=i
    · subst hij
      rw [(hown hne).1]
      exact ⟨hne,.inl (hor.resolve_right (hstoring _ _ _))⟩
    · rw [(hothers j hij).1,hphase j hij]
      exact ⟨hne,hor⟩

/-- A property of a thread's position is about the thread which has moved, or an
old one. -/
theorem moved_cases {β : Type*} {f : Phase → β} {b : β} {q : Phase}
    (hphase : s'.phase=Function.update s.phase i q) (h : f (s'.phase j)=b) :
    j=i ∧ f q=b ∨ j≠i ∧ f (s.phase j)=b := by
  rw [hphase] at h
  by_cases hij : j=i
  · rw [hij,Function.update_self] at h
    exact .inl ⟨hij,h⟩
  · rw [Function.update_of_ne hij] at h
    exact .inr ⟨hij,h⟩

/-- A step which does not touch the producers. -/
theorem Supply.turn {q : Phase} (h : Supply owned list s) (hsame : SameProducers s s')
    (hphase : s'.phase=Function.update s.phase i q) (hcharge : q.charge=(s.phase i).charge)
    (hvisits : ∀ {p},q.visits=some p → p∈list)
    (hgrabs : ∀ {demand p},q=.grabbing demand p → s.isExplicit p=demand.isExplicit) :
    Supply owned list s' := by
  obtain ⟨hcreated,hexplicit,hinactive,hnext,htail,hpast,htokens⟩ := hsame
  have hcharges : ∀ j,(s'.phase j).charge=(s.phase j).charge := by
    intro j
    rw [hphase]
    by_cases hij : j=i
    · rw [hij,Function.update_self,hcharge]
    · rw [Function.update_of_ne hij]
  refine ⟨?_,h.nodup,?_,?_,?_,h.injective,?_,?_,fun {j p b} hj => ?_,fun {j l p b c} hj hl => ?_,
    fun {j p} hj => ?_,fun {j demand p} hj => ?_⟩
  · rw [hnext,htail]
    exact h.chain
  · rw [htail,hpast]
    exact h.history
  · rw [hcreated]
    exact h.made
  · rw [hexplicit]
    exact h.own
  · rw [hinactive,hexplicit,htokens]
    exact h.inactive
  · rw [hexplicit,htokens]
    exact h.tokens
  · rw [hcharges j] at hj
    rw [hcreated,hexplicit]
    exact h.charge hj
  · rw [hcharges j] at hj
    rw [hcharges l] at hl
    exact h.alone hj hl
  · rcases moved_cases hphase hj with ⟨-,hj⟩|⟨-,hj⟩
    · exact hvisits hj
    · exact h.visits hj
  · rw [hexplicit]
    rcases moved_cases (f := id) hphase hj with ⟨-,hj⟩|⟨-,hj⟩
    · exact hgrabs hj
    · exact h.grabs hj

/-- A thread moves and its part of the flag stays as it is. -/
theorem Sound.flag_kept {q : Phase} (h : Sound hashedId ranked owned list s)
    (hphase : s'.phase=Function.update s.phase i q) (hlocks : q.locks=(s.phase i).locks)
    (hresizing : s'.resizing=s.resizing) :
    (s'.resizing=true ↔ ∃ j,(s'.phase j).locks=true) ∧
      ∀ {j l},(s'.phase j).locks=true → (s'.phase l).locks=true → j=l := by
  have hsame : ∀ j,(s'.phase j).locks=(s.phase j).locks := by
    intro j
    rw [hphase]
    by_cases hij : j=i
    · rw [hij,Function.update_self,hlocks]
    · rw [Function.update_of_ne hij]
  simp only [hsame,hresizing]
  exact ⟨h.flag,h.sole⟩

/-- What holds of a step after which one thread may own a producer, or a slot of
the table, which it did not own before, or no longer. -/
structure Turns (hashedId : ι → ℕ) (ranked ranked' : List ι) (owned owned' : ι → Option ℕ)
    (list' : List ℕ) (s s' : State ι) (i : ι) (q : Phase) : Prop where
  /-- The tables stay. -/
  same : SameTables s s'
  /-- The thread goes on. -/
  phase : s'.phase=Function.update s.phase i q
  /-- The producers are in order. -/
  supply : Supply owned' list' s'
  /-- The thread was not about to store its producer. -/
  storing : ∀ table k value,s.phase i≠.storing table k value
  /-- The other threads own what they owned, and rank no higher. -/
  others : ∀ j,j≠i → owned' j=owned j ∧ (j∈ranked' ↔ j∈ranked) ∧ rank ranked' j ≤ rank ranked j
  /-- A thread which owned a producer keeps it, and the ranks stay. -/
  own : owned i≠none → owned' i=owned i ∧ ranked'=ranked
  /-- The thread knows what its phase relies on. -/
  fits : q.Fits hashedId s i (owned' i) (rank ranked' i)
  /-- If it owns a producer, this is in the table or about to be. -/
  settled : owned' i≠none → q.placed=true ∨ ∃ table k,s.key table k=some i
  /-- It is counted if it owns a producer or is about to. -/
  counted : i∈ranked' ↔ owned' i≠none ∨ q.counted=true
  /-- No thread is ranked twice. -/
  nodup : ranked'.Nodup
  /-- The count of the table. -/
  count : s'.count=ranked'.length
  /-- The flag and the thread which has it. -/
  flag : (s'.resizing=true ↔ ∃ j,(s'.phase j).locks=true) ∧ ∀ {j l},(s'.phase j).locks=true →
    (s'.phase l).locks=true → j=l
  /-- What is returned is owned. -/
  returned : ∀ {j p},(j,some p)∈s'.returned → (j,some p)∈s.returned ∨ j=i ∧ owned' i=some p

/-- A step of a thread which does not touch the tables. -/
theorem sound_turn {q : Phase} (h : Sound hashedId ranked owned list s)
    (hturns : Turns hashedId ranked ranked' owned owned' list' s s' i q) :
    Sound hashedId ranked' owned' list' s' := by
  obtain ⟨hsame,hphase,hsupply,hstoring,hothers,hown,hfits,hsettled,hcounted,hnodup,hcount,hflag,
    hreturned⟩ := hturns
  have hself : s'.phase i=q := by rw [hphase,Function.update_self]
  have hother : ∀ j,j≠i → s'.phase j=s.phase j := fun j hj => by
    rw [hphase,Function.update_of_ne hj]
  refine ⟨h.tables.turn hsame hother hstoring (fun j hj => ?_) hown,hsupply,fun j => ?_,
    fun j hj => ?_,
    fun j => ?_,hnodup,hcount,hflag.1,hflag.2,fun {j p} hj => ?_⟩
  · obtain ⟨hj1,hj2,hj3⟩ := hothers j hj
    exact ⟨hj1,hj2.mpr,hj3⟩
  · by_cases hij : j=i
    · subst hij
      rw [hself]
      exact hfits.of_sameTables hsame
    · obtain ⟨howned,-,hrank⟩ := hothers j hij
      rw [hother j hij,howned]
      exact ((h.fits j).kept (fun _ => rfl) (fun _ _ => rfl) (fun _ _ => Iff.rfl)
        (fun _ _ hk => hk) rfl hrank).of_sameTables hsame
  · rw [hsame.key]
    by_cases hij : j=i
    · subst hij
      rw [hself]
      exact hsettled hj
    · rw [hother j hij]
      rw [(hothers j hij).1] at hj
      exact h.settled j hj
  · by_cases hij : j=i
    · subst hij
      rw [hself]
      exact hcounted
    · obtain ⟨howned,hmem,-⟩ := hothers j hij
      rw [hother j hij,howned,hmem]
      exact h.counted j
  · rcases hreturned hj with hold|⟨rfl,hnew⟩
    · have howned := h.returned hold
      by_cases hij : j=i
      · subst hij
        rw [(hown (by rw [howned]; exact Option.some_ne_none p)).1]
        exact howned
      · rw [(hothers j hij).1]
        exact howned
    · exact hnew

/-- A thread which has a producer and puts it in no table is in one. -/
theorem Sound.in_table (h : Sound hashedId ranked owned list s)
    (hplaced : (s.phase i).placed=false) (hown : owned i≠none) :
    ∃ table k,s.key table k=some i := by
  refine (h.settled i hown).resolve_left ?_
  rw [hplaced]
  exact Bool.false_ne_true

/-- What holds of a step which changes the phase of one thread only. -/
structure Goes (hashedId : ι → ℕ) (ranked : List ι) (owned : ι → Option ℕ) (list : List ℕ)
    (s : State ι) (i : ι) (p q : Phase) : Prop where
  /-- The thread knows what its phase relies on. -/
  fits : q.Fits hashedId s i (owned i) (rank ranked i)
  /-- It has the same producer in charge. -/
  charge : q.charge=p.charge
  /-- A producer it visits is in the list. -/
  visits : ∀ {n},q.visits=some n → n∈list
  /-- One it grabs has the kind it wants. -/
  grabs : ∀ {demand n},q=.grabbing demand n → s.isExplicit n=demand.isExplicit
  /-- It is counted as before. -/
  counted : q.counted=p.counted
  /-- It has the flag, or not, as before. -/
  locks : q.locks=p.locks
  /-- Its producer is in the table if it was. -/
  placed : p.placed=false ∨ q.placed=true
  /-- It was not about to store its producer. -/
  storing : ∀ table k value,p≠.storing table k value

/-- A thread moves on in its call. -/
theorem sound_goto {p q : Phase} (h : Sound hashedId ranked owned list s) (hi : s.phase i=p)
    (hgoes : Goes hashedId ranked owned list s i p q) :
    Sound hashedId ranked owned list (s.goto i q) := by
  obtain ⟨hfits,hcharge,hvisits,hgrabs,hcounted,hlocks,hplaced,hstoring⟩ := hgoes
  subst hi
  refine sound_turn h {
      same := ⟨rfl,rfl,rfl,rfl,rfl,rfl,rfl⟩
      phase := rfl
      supply := h.supply.turn ⟨rfl,rfl,rfl,rfl,rfl,rfl,rfl⟩ rfl hcharge hvisits hgrabs
      storing := hstoring
      others := fun j _ => ⟨rfl,Iff.rfl,le_rfl⟩
      own := fun _ => ⟨rfl,rfl⟩
      fits := hfits
      settled := fun hown => ?_
      counted := ?_
      nodup := h.nodup
      count := h.count
      flag := h.flag_kept rfl hlocks rfl
      returned := .inl}
  · rcases hplaced with hp|hq
    · exact .inr (h.in_table hp hown)
    · exact .inl hq
  · rw [hcounted]
    exact h.counted i

/-- Threads learn about tables and keys. -/
theorem sound_inform {known' : ι → ℕ → ℕ → Bool} {latest' : ι → ℕ}
    (h : Sound hashedId ranked owned list s)
    (hknown : ∀ j table k,s.known j table k=true → known' j table k=true)
    (hset : ∀ {j table k},known' j table k=true → s.key table k≠none)
    (hlatest : ∀ j,s.latest j ≤ latest' j ∧ latest' j ≤ s.implicitProducerHash)
    (hfits : ∀ j,(s.phase j).Fits hashedId {s with known := known',latest := latest'} j (owned j)
      (rank ranked j)) :
    Sound hashedId ranked owned list {s with known := known',latest := latest'} := by
  have ht := h.tables
  refine ⟨⟨ht.power,ht.grows,ht.prev_zero,ht.prev_succ,fun j => (hlatest j).2,hset,
    fun {j table k} hj => ?_,ht.unique,ht.value⟩,?_,hfits,h.settled,h.counted,h.nodup,h.count,
    h.flag,
    h.sole,h.returned⟩
  · obtain ⟨hle,hmem,hlt,d,hk,hpassed⟩ := ht.key hj
    exact ⟨hle.trans (hlatest j).1,hmem,hlt,d,hk,hpassed.mono (hknown j table)⟩
  · have hs := h.supply
    exact ⟨hs.chain,hs.nodup,hs.history,hs.made,hs.own,hs.injective,hs.inactive,hs.tokens,hs.charge,
      hs.alone,hs.visits,hs.grabs⟩

/-- A thread loads a table. -/
theorem sound_see {table : ℕ} (h : Sound hashedId ranked owned list s)
    (hle : s.latest i ≤ table) (hhash : table ≤ s.implicitProducerHash)
    (hfits : (s.phase i).Fits hashedId (s.see i table) i (owned i) (rank ranked i)) :
    Sound hashedId ranked owned list (s.see i table) := by
  refine sound_inform h (fun _ _ _ hk => hk) h.tables.known (fun j => ?_) fun j => ?_
  · by_cases hij : j=i
    · rw [hij,Function.update_self]
      exact ⟨hle,hhash⟩
    · rw [Function.update_of_ne hij]
      exact ⟨le_rfl,h.tables.latest j⟩
  · by_cases hij : j=i
    · rw [hij]
      exact hfits
    · exact (h.fits j).kept (fun _ => rfl) (fun _ _ => rfl) (fun _ _ => Iff.rfl) (fun _ _ hk => hk)
        (Function.update_of_ne hij _ _) le_rfl

/-- What a thread knows after it found a key set. -/
theorem learn_known {table k : ℕ} (j : ι) (table' k' : ℕ) :
    (s.learn i table k).known j table' k'=true ↔
      s.known j table' k'=true ∨ j=i ∧ table'=table ∧ k'=k := by
  simp only [State.learn]
  by_cases hij : j=i
  · subst hij
    rw [Function.update_self]
    by_cases htable : table'=table
    · subst htable
      rw [Function.update_self]
      by_cases hk : k'=k
      · subst hk
        rw [Function.update_self]
        exact ⟨fun _ => .inr ⟨rfl,rfl,rfl⟩,fun _ => rfl⟩
      · rw [Function.update_of_ne hk]
        exact ⟨.inl,fun hor => hor.resolve_right fun hc => hk hc.2.2⟩
    · rw [Function.update_of_ne htable]
      exact ⟨.inl,fun hor => hor.resolve_right fun hc => htable hc.2.1⟩
  · rw [Function.update_of_ne hij]
    exact ⟨.inl,fun hor => hor.resolve_right fun hc => hij hc.1⟩

/-- A thread finds a key set. -/
theorem sound_learn {table k : ℕ} (h : Sound hashedId ranked owned list s)
    (hk : s.key table k≠none) : Sound hashedId ranked owned list (s.learn i table k) := by
  have hgrows : ∀ j table' k',s.known j table' k'=true →
      (s.learn i table k).known j table' k'=true :=
    fun j table' k' hk' => (learn_known j table' k').mpr (.inl hk')
  refine sound_inform h hgrows (fun {j table' k'} hk' => ?_)
    (fun j => ⟨le_rfl,h.tables.latest j⟩) fun j => ?_
  · rcases (learn_known j table' k').mp hk' with hold|⟨-,rfl,rfl⟩
    · exact h.tables.known hold
    · exact hk
  · exact (h.fits j).kept (fun _ => rfl) (fun _ _ => rfl) (fun _ _ => Iff.rfl) (hgrows j) rfl le_rfl

/-- Who holds the flag clears it. -/
theorem Sound.flag_cleared {q : Phase} (h : Sound hashedId ranked owned list s)
    (hphase : s'.phase=Function.update s.phase i q) (hlocks : (s.phase i).locks=true)
    (hq : q.locks=false) (hresizing : s'.resizing=false) :
    (s'.resizing=true ↔ ∃ j,(s'.phase j).locks=true) ∧
      ∀ {j l},(s'.phase j).locks=true → (s'.phase l).locks=true → j=l := by
  have hnobody : ∀ j,¬(s'.phase j).locks=true := by
    intro j hj
    rcases moved_cases hphase hj with ⟨-,hj⟩|⟨hij,hj⟩
    · rw [hq] at hj
      cases hj
    · exact hij (h.sole hj hlocks)
  refine ⟨⟨fun hc => ?_,fun ⟨j,hj⟩ => absurd hj (hnobody j)⟩,fun hj => absurd hj (hnobody _)⟩
  rw [hresizing] at hc
  cases hc

/-- A thread sets the flag which nobody holds. -/
theorem Sound.flag_set {q : Phase} (h : Sound hashedId ranked owned list s)
    (hphase : s'.phase=Function.update s.phase i q) (hfree : s.resizing=false)
    (hq : q.locks=true) (hresizing : s'.resizing=true) :
    (s'.resizing=true ↔ ∃ j,(s'.phase j).locks=true) ∧
      ∀ {j l},(s'.phase j).locks=true → (s'.phase l).locks=true → j=l := by
  have honly : ∀ j,(s'.phase j).locks=true → j=i := by
    intro j hj
    by_contra hij
    rw [hphase,Function.update_of_ne hij] at hj
    have hc := h.flag.mpr ⟨j,hj⟩
    rw [hfree] at hc
    cases hc
  refine ⟨⟨fun _ => ⟨i,?_⟩,fun _ => hresizing⟩,fun hj hl => (honly _ hj).trans (honly _ hl).symm⟩
  rw [hphase,Function.update_self]
  exact hq

/-- A phase in which a thread has nothing to do with the producers. -/
theorem Supply.leave {q : Phase} (h : Supply owned list s) (hsame : SameProducers s s')
    (hphase : s'.phase=Function.update s.phase i q) (hcharge : (s.phase i).charge=none)
    (hq : q.charge=none) (hvisits : q.visits=none) : Supply owned list s' := by
  refine h.turn hsame hphase (hq.trans hcharge.symm) ?_ ?_
  · intro n hn
    rw [hvisits] at hn
    cases hn
  · rintro demand n rfl
    cases hvisits

/-- A thread is counted. -/
theorem sound_draw {mainHash : ℕ} (h : Sound hashedId ranked owned list s)
    (hi : s.phase i=.counting mainHash) :
    Sound hashedId (i::ranked) owned list
      {s.goto i (.deciding mainHash (1+s.count)) with count := s.count+1} := by
  have hfits := h.fits i
  rw [hi] at hfits
  obtain ⟨hown,hmain⟩ := hfits
  have hnot : i∉ranked := by
    rw [h.counted i,hi]
    rintro (hc|hc)
    · exact hc hown
    · cases hc
  refine sound_turn h {
      same := ⟨rfl,rfl,rfl,rfl,rfl,rfl,rfl⟩
      phase := rfl
      supply := h.supply.leave ⟨rfl,rfl,rfl,rfl,rfl,rfl,rfl⟩ rfl (by rw [hi]; rfl) rfl rfl
      storing := ?_
      others := fun j hj => ?_
      own := absurd hown
      fits := ⟨hown,hmain,?_⟩
      settled := absurd hown
      counted := ?_
      nodup := List.nodup_cons.mpr ⟨hnot,h.nodup⟩
      count := ?_
      flag := h.flag_kept rfl (by rw [hi]; rfl) rfl
      returned := .inl}
  · rw [hi]
    nofun
  · refine ⟨rfl,?_,(rank_cons_of_ne hj.symm).le⟩
    rw [List.mem_cons]
    exact ⟨fun hor => hor.resolve_left hj,.inr⟩
  · rw [rank_cons_self,←h.count]
    omega
  · exact ⟨fun _ => .inr rfl,fun _ => List.mem_cons_self⟩
  · exact congrArg (·+1) h.count

/-- A thread without a producer is no longer counted. -/
theorem sound_discount {q : Phase} {returned : List (ι × Option ℕ)}
    (h : Sound hashedId ranked owned list s) (hown : owned i=none)
    (hcounted : (s.phase i).counted=true) (hcharge : (s.phase i).charge=none)
    (hstoring : ∀ table k value,s.phase i≠.storing table k value)
    (hlocks : q.locks=(s.phase i).locks) (hq : q=.undoing ∨ q=.outside)
    (hreturned : ∀ {j p},(j,some p)∈returned → (j,some p)∈s.returned) :
    Sound hashedId (ranked.erase i) owned list
      {s.goto i q with count := s.count-1,returned := returned} := by
  have hmem : i∈ranked := (h.counted i).mpr (.inr hcounted)
  have hplain : q.charge=none ∧ q.visits=none ∧ q.counted=false ∧
      ∀ r,q.Fits hashedId s i none r := by
    rcases hq with rfl|rfl
    · exact ⟨rfl,rfl,rfl,fun _ => rfl⟩
    · exact ⟨rfl,rfl,rfl,fun _ => trivial⟩
  obtain ⟨hqc,hqv,hqn,hqf⟩ := hplain
  refine sound_turn h {
      same := ⟨rfl,rfl,rfl,rfl,rfl,rfl,rfl⟩
      phase := rfl
      supply := h.supply.leave ⟨rfl,rfl,rfl,rfl,rfl,rfl,rfl⟩ rfl hcharge hqc hqv
      storing := hstoring
      others := fun j hj => ⟨rfl,List.mem_erase_of_ne hj,rank_erase_le hj.symm⟩
      own := absurd hown
      fits := ?_
      settled := absurd hown
      counted := ?_
      nodup := h.nodup.erase i
      count := ?_
      flag := h.flag_kept rfl hlocks rfl
      returned := fun hj => .inl (hreturned hj)}
  · rw [hown]
    exact hqf _
  · rw [hqn]
    refine ⟨fun hc => absurd hc h.nodup.not_mem_erase,?_⟩
    rintro (hc|hc)
    · exact absurd hown hc
    · cases hc
  · rw [List.length_erase_of_mem hmem,←h.count]

/-- A thread sets the flag. -/
theorem sound_lock {mainHash newCount : ℕ} (h : Sound hashedId ranked owned list s)
    (hi : s.phase i=.deciding mainHash newCount) (hfree : s.resizing=false) :
    Sound hashedId ranked owned list {s.goto i (.reloading newCount) with resizing := true} := by
  have hfits := h.fits i
  rw [hi] at hfits
  refine sound_turn h {
      same := ⟨rfl,rfl,rfl,rfl,rfl,rfl,rfl⟩
      phase := rfl
      supply := h.supply.leave ⟨rfl,rfl,rfl,rfl,rfl,rfl,rfl⟩ rfl (by rw [hi]; rfl) rfl rfl
      storing := ?_
      others := fun j _ => ⟨rfl,Iff.rfl,le_rfl⟩
      own := fun _ => ⟨rfl,rfl⟩
      fits := ⟨hfits.1,hfits.2.2⟩
      settled := absurd hfits.1
      counted := ?_
      nodup := h.nodup
      count := h.count
      flag := h.flag_set rfl hfree rfl rfl
      returned := .inl}
  · rw [hi]
    nofun
  · rw [h.counted i,hi]
    rfl

/-- What holds of a thread which gives the flag back. -/
structure Clears (hashedId : ι → ℕ) (ranked : List ι) (owned : ι → Option ℕ) (s : State ι) (i : ι)
    (q : Phase) (returned : List (ι×Option ℕ)) : Prop where
  /-- It owns no producer. -/
  own : owned i=none
  /-- It has the flag. -/
  locks : (s.phase i).locks=true
  /-- It has no producer in charge. -/
  charge : (s.phase i).charge=none
  /-- It was not about to store one. -/
  storing : ∀ table k value,s.phase i≠.storing table k value
  /-- Then it does not have the flag. -/
  unlocked : q.locks=false
  /-- Nor a producer in charge. -/
  freed : q.charge=none
  /-- It visits none. -/
  visits : q.visits=none
  /-- It is counted as before. -/
  counted : q.counted=(s.phase i).counted
  /-- It knows what its phase relies on. -/
  fits : q.Fits hashedId s i (owned i) (rank ranked i)
  /-- It returns no producer. -/
  returned : ∀ {j p},(j,some p)∈returned → (j,some p)∈s.returned

/-- A thread clears it and goes on without a producer. -/
theorem sound_clear {q : Phase} {returned : List (ι × Option ℕ)}
    (h : Sound hashedId ranked owned list s)
    (hclears : Clears hashedId ranked owned s i q returned) :
    Sound hashedId ranked owned list {s.goto i q with resizing := false,returned := returned} := by
  obtain ⟨hown,hlocks,hcharge,hstoring,hq,hqc,hqv,hcounted,hfits,hreturned⟩ := hclears
  refine sound_turn h {
      same := ⟨rfl,rfl,rfl,rfl,rfl,rfl,rfl⟩
      phase := rfl
      supply := h.supply.leave ⟨rfl,rfl,rfl,rfl,rfl,rfl,rfl⟩ rfl hcharge hqc hqv
      storing := hstoring
      others := fun j _ => ⟨rfl,Iff.rfl,le_rfl⟩
      own := fun _ => ⟨rfl,rfl⟩
      fits := hfits
      settled := absurd hown
      counted := ?_
      nodup := h.nodup
      count := h.count
      flag := h.flag_cleared rfl hlocks hq rfl
      returned := fun hj => .inl (hreturned hj)}
  rw [hcounted]
  exact h.counted i

end Frames

section Producers

variable {hashedId : ι → ℕ} {ranked : List ι} {owned : ι → Option ℕ} {list : List ℕ}
  {s s' : State ι} {i j : ι} {p q : Phase} {demand : Demand} {producer : ℕ}

/-- What creating a producer changes. -/
structure Creates (s s' : State ι) (i : ι) (demand : Demand) : Prop where
  /-- The thread is about to chain the producer. -/
  phase : s'.phase=Function.update s.phase i (.chaining demand s.created)
  /-- There is one more. -/
  created : s'.created=s.created+1
  /-- Its kind. -/
  isExplicit : s'.isExplicit=Function.update s.isExplicit s.created demand.isExplicit
  /-- It is active. -/
  inactive : s'.inactive=Function.update s.inactive s.created false
  /-- It is in no list. -/
  next : s'.next=Function.update s.next s.created none
  /-- The list stays. -/
  tail : s'.producerListTail=s.producerListTail
  /-- So do its earlier heads. -/
  past : s'.past=s.past
  /-- And the tokens. -/
  tokens : s'.tokens=s.tokens

/-- A new producer. -/
theorem Supply.create (h : Supply owned list s) (hcreates : Creates s s' i demand) :
    Supply owned list s' := by
  obtain ⟨hphase,hcreated,hexplicit,hinactive,hnext,htail,hpast,htokens⟩ := hcreates
  have hnew : s.created∉list := fun hc => lt_irrefl _ (h.made hc)
  have hold : ∀ {p},p < s.created → s'.isExplicit p=s.isExplicit p := by
    intro p hp
    rw [hexplicit,Function.update_of_ne hp.ne]
  refine ⟨?_,h.nodup,?_,fun {p} hp => ?_,fun hp => ?_,h.injective,fun {p} hp => ?_,
    fun {p} hp => ?_,fun {j p b} hj => ?_,fun {j l p b c} hj hl => ?_,fun {j p} hj => ?_,
    fun {j demand p} hj => ?_⟩
  · rw [hnext,htail]
    exact h.chain.update hnew none
  · rw [htail,hpast]
    exact h.history
  · rw [hcreated]
    exact (h.made hp).trans (Nat.lt_succ_self _)
  · obtain ⟨hmem,he⟩ := h.own hp
    exact ⟨hmem,(hold (h.made hmem)).trans he⟩
  · rw [hinactive] at hp
    by_cases hp' : p=s.created
    · rw [hp',Function.update_self] at hp
      cases hp
    · rw [Function.update_of_ne hp'] at hp
      obtain ⟨hmem,he,ht⟩ := h.inactive hp
      exact ⟨hmem,(hold (h.made hmem)).trans he,by rw [htokens]; exact ht⟩
  · rw [htokens] at hp ⊢
    obtain ⟨hmem,he,ht⟩ := h.tokens hp
    exact ⟨hmem,(hold (h.made hmem)).trans he,ht⟩
  · rw [hcreated]
    rcases moved_cases hphase hj with ⟨-,hq⟩|⟨-,hj⟩
    · cases hq
      refine ⟨Nat.lt_succ_self _,hnew,?_⟩
      rw [hexplicit,Function.update_self]
    · obtain ⟨hlt,hnot,he⟩ := h.charge hj
      exact ⟨hlt.trans (Nat.lt_succ_self _),hnot,(hold hlt).trans he⟩
  · rcases moved_cases hphase hj with ⟨hij,hq⟩|⟨-,hj⟩
    · rcases moved_cases hphase hl with ⟨hil,-⟩|⟨-,hl⟩
      · exact hij.trans hil.symm
      · cases hq
        exact absurd (h.charge hl).1 (lt_irrefl _)
    · rcases moved_cases hphase hl with ⟨-,hq⟩|⟨-,hl⟩
      · cases hq
        exact absurd (h.charge hj).1 (lt_irrefl _)
      · exact h.alone hj hl
  · rcases moved_cases hphase hj with ⟨-,hq⟩|⟨-,hj⟩
    · cases hq
    · exact h.visits hj
  · rcases moved_cases (f := id) hphase hj with ⟨-,hq⟩|⟨-,hj⟩
    · cases hq
    · have hmem := h.visits (i := j) (p := p) (by rw [show s.phase j=_ from hj]; rfl)
      exact (hold (h.made hmem)).trans (h.grabs hj)

/-- A failed exchange links a new producer to what was the end of the list. -/
theorem Supply.relink {b : Bool} {v : Option ℕ} (h : Supply owned list s)
    (hcharge : (s.phase i).charge=some (producer,b))
    (hphase : s'.phase=Function.update s.phase i q) (hq : q.charge=some (producer,b))
    (hvisits : q.visits=none)
    (hnext : s'.next=Function.update s.next producer v)
    (hsame : SameProducers s {s' with next := s.next}) : Supply owned list s' := by
  have hlinked : Supply owned list {s with next := Function.update s.next producer v} :=
    ⟨h.chain.update (h.charge hcharge).2.1 v,h.nodup,h.history,h.made,h.own,h.injective,h.inactive,
      h.tokens,h.charge,h.alone,h.visits,h.grabs⟩
  obtain ⟨hcreated,hexplicit,hinactive,-,htail,hpast,htokens⟩ := hsame
  refine hlinked.turn ⟨hcreated,hexplicit,hinactive,hnext,htail,hpast,htokens⟩ hphase
    (hq.trans hcharge.symm) ?_ ?_
  · intro n hn
    rw [hvisits] at hn
    cases hn
  · rintro demand n rfl
    cases hvisits

/-- What hooking a producer into the list changes. -/
structure Hooks (s s' : State ι) (i : ι) (q : Phase) (producer : ℕ) (b : Bool) : Prop where
  /-- The thread has the producer in charge. -/
  charge : (s.phase i).charge=some (producer,b)
  /-- The thread goes on. -/
  phase : s'.phase=Function.update s.phase i q
  /-- Then it has none in charge. -/
  freed : q.charge=none
  /-- And visits none. -/
  visits : q.visits=none
  /-- No producer is new. -/
  created : s'.created=s.created
  /-- None changes its kind. -/
  isExplicit : s'.isExplicit=s.isExplicit
  /-- None becomes inactive. -/
  inactive : s'.inactive=s.inactive
  /-- The producer is linked to the old head. -/
  next : s'.next=Function.update s.next producer s.producerListTail
  /-- It is the new head. -/
  tail : s'.producerListTail=some producer
  /-- The old head is remembered. -/
  past : s'.past=s.producerListTail::s.past
  /-- The tokens stay. -/
  tokens : s'.tokens=s.tokens

/-- The exchange succeeds, and the new producer is on the list. -/
theorem Supply.hook {b : Bool} (h : Supply owned list s) (hhooks : Hooks s s' i q producer b) :
    Supply owned (producer::list) s' := by
  obtain ⟨hcharge,hphase,hq,hvisits,hcreated,hexplicit,hinactive,hnext,htail,hpast,
    htokens⟩ := hhooks
  obtain ⟨hlt,hnot,-⟩ := h.charge hcharge
  refine ⟨?_,List.nodup_cons.mpr ⟨hnot,h.nodup⟩,?_,fun {p} hp => ?_,fun hp => ?_,
    h.injective,fun {p} hp => ?_,fun {p} hp => ?_,fun {j p b} hj => ?_,fun {j l p b c} hj hl => ?_,
    fun {j p} hj => ?_,fun {j demand p} hj => ?_⟩
  · rw [hnext,htail]
    exact h.chain.push hnot
  · rw [htail,hpast,h.history]
    rfl
  · rw [hcreated]
    rcases List.mem_cons.mp hp with rfl|hp
    · exact hlt
    · exact h.made hp
  · rw [hexplicit]
    obtain ⟨hmem,he⟩ := h.own hp
    exact ⟨List.mem_cons_of_mem _ hmem,he⟩
  · rw [hinactive] at hp
    rw [hexplicit,htokens]
    obtain ⟨hmem,he⟩ := h.inactive hp
    exact ⟨List.mem_cons_of_mem _ hmem,he⟩
  · rw [htokens] at hp ⊢
    rw [hexplicit]
    obtain ⟨hmem,he⟩ := h.tokens hp
    exact ⟨List.mem_cons_of_mem _ hmem,he⟩
  · rw [hcreated,hexplicit]
    rcases moved_cases hphase hj with ⟨-,hj⟩|⟨hij,hj⟩
    · rw [hq] at hj
      cases hj
    · obtain ⟨hjlt,hjnot,he⟩ := h.charge hj
      refine ⟨hjlt,?_,he⟩
      rw [List.mem_cons,not_or]
      refine ⟨?_,hjnot⟩
      rintro rfl
      exact hij (h.alone hj hcharge)
  · rcases moved_cases hphase hj with ⟨-,hj⟩|⟨-,hj⟩
    · rw [hq] at hj
      cases hj
    · rcases moved_cases hphase hl with ⟨-,hl⟩|⟨-,hl⟩
      · rw [hq] at hl
        cases hl
      · exact h.alone hj hl
  · rcases moved_cases hphase hj with ⟨-,hj⟩|⟨-,hj⟩
    · rw [hvisits] at hj
      cases hj
    · exact List.mem_cons_of_mem _ (h.visits hj)
  · rw [hexplicit]
    rcases moved_cases (f := id) hphase hj with ⟨-,hj⟩|⟨-,hj⟩
    · rw [show q=_ from hj] at hvisits
      cases hvisits
    · exact h.grabs hj

/-- A thread gets a producer of its own. -/
theorem Supply.give (h : Supply owned list s) (hmem : producer∈list)
    (hexplicit : s.isExplicit producer=false) (hfree : ∀ j,owned j≠some producer) :
    Supply (Function.update owned i (some producer)) list s := by
  refine ⟨h.chain,h.nodup,h.history,h.made,fun {j p} hj => ?_,fun {j l p} hj hl => ?_,h.inactive,
    h.tokens,h.charge,h.alone,h.visits,h.grabs⟩
  · by_cases hij : j=i
    · rw [hij,Function.update_self] at hj
      cases hj
      exact ⟨hmem,hexplicit⟩
    · rw [Function.update_of_ne hij] at hj
      exact h.own hj
  · by_cases hij : j=i
    · by_cases hil : l=i
      · exact hij.trans hil.symm
      · rw [hij,Function.update_self] at hj
        rw [Function.update_of_ne hil,←hj] at hl
        exact absurd hl (hfree l)
    · rw [Function.update_of_ne hij] at hj
      by_cases hil : l=i
      · rw [hil,Function.update_self,←hj] at hl
        exact absurd hl.symm (hfree j)
      · rw [Function.update_of_ne hil] at hl
        exact h.injective hj hl

omit [DecidableEq ι] in
/-- What was the end of the list is on it. -/
theorem Supply.seen (h : Supply owned list s) (hseen : s.Seen (some producer)) :
    producer∈list := by
  have hmem : some producer∈s.producerListTail::s.past := List.mem_cons.mpr hseen
  rw [h.history,List.mem_append,List.mem_singleton] at hmem
  obtain ⟨p,hp,hsome⟩ := List.mem_map.mp (hmem.resolve_right (Option.some_ne_none producer))
  cases hsome
  exact hp

omit [DecidableEq ι] in
/-- A token gets a producer which no token has. -/
theorem Supply.entrust {inactive : ℕ → Bool} (h : Supply owned list s) (hmem : producer∈list)
    (hexplicit : s.isExplicit producer=true) (htokens : s.tokens producer=0)
    (hinactive : ∀ {p},inactive p=true → p≠producer ∧ s.inactive p=true) :
    Supply owned list {s with
      tokens := Function.update s.tokens producer (s.tokens producer+1)
      inactive := inactive} := by
  refine ⟨h.chain,h.nodup,h.history,h.made,h.own,h.injective,fun {p} hp => ?_,fun {p} hp => ?_,
    h.charge,h.alone,h.visits,h.grabs⟩
  · obtain ⟨hne,hp⟩ := hinactive hp
    dsimp only
    rw [Function.update_of_ne hne]
    exact h.inactive hp
  · dsimp only at hp ⊢
    by_cases hne : p=producer
    · subst hne
      rw [Function.update_self,htokens]
      exact ⟨hmem,hexplicit,rfl⟩
    · rw [Function.update_of_ne hne] at hp ⊢
      exact h.tokens hp

omit [DecidableEq ι] in
/-- A token leaves its producer behind. -/
theorem Supply.abandon (h : Supply owned list s) (htokens : 0 < s.tokens producer) :
    Supply owned list {s with
      tokens := Function.update s.tokens producer (s.tokens producer-1)
      inactive := Function.update s.inactive producer true} := by
  obtain ⟨hmem,hexplicit,hone⟩ := h.tokens htokens
  refine ⟨h.chain,h.nodup,h.history,h.made,h.own,h.injective,fun {p} hp => ?_,fun {p} hp => ?_,
    h.charge,h.alone,h.visits,h.grabs⟩
  · dsimp only at hp ⊢
    by_cases hne : p=producer
    · subst hne
      rw [Function.update_self,hone]
      exact ⟨hmem,hexplicit,rfl⟩
    · rw [Function.update_of_ne hne] at hp ⊢
      exact h.inactive hp
  · dsimp only at hp ⊢
    by_cases hne : p=producer
    · subst hne
      rw [Function.update_self,hone] at hp
      exact absurd hp (lt_irrefl _)
    · rw [Function.update_of_ne hne] at hp ⊢
      exact h.tokens hp

end Producers

end FastEventSystem.ProducerTable
