import FastEventSystem.ConnectionObjects

/-!
# Operations in the middle of which callables are destroyed

Erasing a node destroys the callable stored in it, and an assignment destroys
the callables of the list it replaces. The destructor of a callable is code of
the user, which may perform any operation; a callable may own the `connection`
object of its own subscription. It runs in the middle of the operation: the
deleter has unlinked the node but `_connected` is still true, or the target of an
assignment has lost its list but still keeps its old connections. An operation is
performed whole, if the destructors it calls leave the subscriptions alone, or it
begins, has other operations in its middle, and ends.

Destroying a `sync` destroys its vector first, and what the destructors of its
callables do comes after that operation. Copying or moving a callable has no effect
on the subscriptions, and the address of a node may come back once it is unlinked.
-/

namespace FastEventSystem.ErasedCallables

open SlotTable SyncRegistry ConnectionObjects GuardedRuns

/-- What the standard library leaves undefined. -/
inductive Fault where
  /-- `registered.erase(it)` with an iterator of no node of a living list. -/
  | noNode
  /-- A list is used in the middle of its assignment, or destroyed in the middle
  of an erase. -/
  | midway
  deriving DecidableEq,Repr

/-- An operation in its middle. -/
inductive Pending where
  /-- `disconnect`, between `_deleter(_registered)` and `_connected = false`. -/
  | disconnecting (c : ℕ)
  /-- Copy assignment, between `_registered` and `_conns`. -/
  | copyAssigning (a b : ℕ)
  /-- Move assignment, after the target's own list was cleared. -/
  | moveAssigning (a b : ℕ)
  deriving DecidableEq,Repr

/-- The subscriptions and the operations in their middle. -/
structure Scene (μ : Type*) where
  /-- All `sync` objects, connections and connection objects. -/
  world : World μ
  /-- Operations whose destructors run, innermost first. -/
  pending : List Pending
  /-- The first fault; nothing is said after it. -/
  fault : Option Fault
  deriving DecidableEq,Repr

/-- One step. -/
inductive Act (η σ φ δ : Type*) where
  /-- An operation whose destructors do nothing to the subscriptions. -/
  | whole (a : ConnectionObjects.Act η σ φ δ)
  /-- An operation up to the destructors it calls. -/
  | begins (a : ConnectionObjects.Act η σ φ δ)
  /-- The destructors have run, and the innermost operation goes on to its end. -/
  | ends
  deriving DecidableEq,Repr

variable {μ η σ φ δ : Type*}

/-- Before the first operation. -/
def Scene.start : Scene μ := ⟨.start,[],none⟩

/-- The connection which is being disconnected. -/
def Pending.connection : Pending → Option ℕ
  | .disconnecting c => some c
  | _ => none

/-- The assignment changes the list of the slot. -/
def Pending.assigns (k : ℕ) : Pending → Bool
  | .disconnecting _ => false
  | .copyAssigning a _ => decide (a=k)
  | .moveAssigning a b => decide (a=k ∨ b=k)

/-- The assignment changes or reads the list of the slot. -/
def Pending.uses (k : ℕ) : Pending → Bool
  | .disconnecting _ => false
  | .copyAssigning a b | .moveAssigning a b => decide (a=k ∨ b=k)

/-- The connections which are being disconnected. -/
def disconnecting (pending : List Pending) : List ℕ := pending.filterMap Pending.connection

section Operations

/-- The handle through which an operation disconnects. -/
def handle (w : World μ) : ConnectionObjects.Act η σ φ δ → Option ℕ
  | .disconnect c => some c
  | .destroy o => (live w.objs o).join
  | _ => none

/-- Slot and address of the node which a disconnect through a handle erases. -/
def erasedBy (r : Registry μ) (c : ℕ) : Option (ℕ×ℕ) :=
  match r.heap[c]? with
  | none => none
  | some conn =>
    if r.locks c=true ∧ conn.connected=true then some (conn.registered,conn.it) else none

/-- Slot and address of the node an operation erases. -/
def erased (w : World μ) (a : ConnectionObjects.Act η σ φ δ) : Option (ℕ×ℕ) :=
  (handle w a).bind (erasedBy w.registry)

/-- The `sync` an operation destroys. -/
def destroyed : ConnectionObjects.Act η σ φ δ → Option ℕ
  | .destroySync k => some k
  | _ => none

/-- The `sync` objects whose lists an operation changes. -/
def altered (w : World μ) : ConnectionObjects.Act η σ φ δ → List ℕ
  | .moveSync b => [b]
  | .copyAssignSync a b _ => if a=b then [] else [a]
  | .moveAssignSync a b => [a,b]
  | .destroySync k => [k]
  | a => (erased w a).toList.map Prod.fst++a.connects.toList.map Prod.fst

/-- The `sync` objects whose lists an operation reads only. -/
def copied : ConnectionObjects.Act η σ φ δ → List ℕ
  | .copySync b _ => [b]
  | .copyAssignSync a b _ => if a=b then [] else [b]
  | _ => []

/-- The operation may not be performed in the middle of this one. -/
def Pending.excludes (w : World μ) (a : ConnectionObjects.Act η σ φ δ) : Pending → Bool
  | .disconnecting c =>
    w.registry.heap[c]?.any fun conn => decide (destroyed a=some conn.registered)
  | p => (altered w a).any p.uses || (copied a).any p.assigns

/-- `_deleter(_registered)`, which unlinks the node before its callable is
destroyed. -/
def unlink (r : Registry μ) (c : ℕ) : Option (Registry μ) :=
  match r.heap[c]? with
  | none => none
  | some conn =>
    if r.locks c=true ∧ conn.connected=true then
      match (r.sync conn.registered).bind fun S => S.erase conn.it with
      | none => none
      | some S => some {r with syncs := r.syncs.set conn.registered (some S)}
    else none

/-- `_connected = false`. -/
def lower (r : Registry μ) (c : ℕ) : Registry μ :=
  {r with heap := r.heap.modify c fun conn => {conn with connected := false}}

/-- `_registered` is assigned copies of the other list, at the same condition as
the whole copy assignment. -/
def assignNodes (r : Registry μ) (a b : ℕ) (addrs : List ℕ) : Option (Registry μ) :=
  match r.sync a,r.sync b with
  | some A,some B =>
    if a≠b ∧ addrs.length=B.registered.length ∧ addrs.Nodup ∧
        ∀ addr∈addrs,addr∈A.addrs ∨ r.taken addr=false then
      some {r with syncs := r.syncs.set a (some ⟨copyNodes B.registered addrs,A.conns⟩)}
    else none
  | _,_ => none

/-- `_conns` is assigned the other vector. -/
def assignConns (r : Registry μ) (a b : ℕ) : Option (Registry μ) :=
  match r.sync a,r.sync b with
  | some A,some B => some {r with syncs := r.syncs.set a (some ⟨A.registered,B.conns⟩)}
  | _,_ => none

/-- The list of the target is cleared before it takes the nodes of the other. -/
def clearNodes (r : Registry μ) (a b : ℕ) : Option (Registry μ) :=
  match r.sync a,r.sync b with
  | some A,some _ =>
    if a≠b then some {r with syncs := r.syncs.set a (some ⟨[],A.conns⟩)} else none
  | _,_ => none

/-- What is left of an operation when its destructors have run. -/
def Pending.finish (r : Registry μ) : Pending → Option (Registry μ)
  | .disconnecting c => some (lower r c)
  | .copyAssigning a b => assignConns r a b
  | .moveAssigning a b => r.moveAssign a b

end Operations

/-- Disconnecting through the handle erases with an iterator of no node: its node
is gone, or is just being erased. -/
def Scene.lost (s : Scene μ) (c : ℕ) : Bool :=
  s.world.registry.locks c && (decide (c∈disconnecting s.pending) ||
    (s.world.registry.disconnect c).isNone)

/-- The operation is excluded by one which is in its middle. -/
def Scene.clashes (s : Scene μ) (a : ConnectionObjects.Act η σ φ δ) : Bool :=
  s.pending.any (Pending.excludes s.world a)

/-- The registry changes, and another operation is in its middle. -/
def Scene.suspend (s : Scene μ) (p : Pending) (objs : List (Option (Option ℕ)))
    (r : Option (Registry μ)) : Option (Scene μ) :=
  r.map fun registry => {s with
    world := {s.world with registry := registry,objs := objs}
    pending := p::s.pending}

/-- An operation up to the destructors it calls. -/
def Scene.enter (s : Scene μ) : ConnectionObjects.Act η σ φ δ → Option (Scene μ)
  | .disconnect c =>
    s.suspend (.disconnecting c) s.world.objs (unlink s.world.registry c)
  | .destroy o =>
    match live s.world.objs o with
    | some (some c) =>
      s.suspend (.disconnecting c) (s.world.objs.set o none) (unlink s.world.registry c)
    | _ => none
  | .copyAssignSync a b addrs =>
    s.suspend (.copyAssigning a b) s.world.objs (assignNodes s.world.registry a b addrs)
  | .moveAssignSync a b =>
    s.suspend (.moveAssigning a b) s.world.objs (clearNodes s.world.registry a b)
  | _ => none

/-- The rest of the innermost operation. -/
def Scene.leave (s : Scene μ) : Option (Scene μ) :=
  match s.pending with
  | [] => none
  | p::pending => (p.finish s.world.registry).map fun registry =>
      {s with world := {s.world with registry := registry},pending := pending}

/-- An operation is performed unless it is undefined. -/
def Scene.attempt (s : Scene μ) (a : ConnectionObjects.Act η σ φ δ)
    (outcome : Option (Scene μ)) : Option (Scene μ) :=
  if s.clashes a=true then some {s with fault := some .midway}
  else if (handle s.world a).any s.lost=true then some {s with fault := some .noNode}
  else outcome

/-- Perform one step. -/
def next (s : Scene (Method η σ φ δ)) (act : Act η σ φ δ) : Option (Scene (Method η σ φ δ)) :=
  if s.fault.isSome=true then none
  else
    match act with
    | .whole a =>
      s.attempt a ((ConnectionObjects.next s.world a).map fun world => {s with world := world})
    | .begins a => s.attempt a (s.enter a)
    | .ends => s.leave

/-- The operation is one the standard library defines in this state. -/
def Regular (s : Scene μ) (a : ConnectionObjects.Act η σ φ δ) : Prop :=
  s.clashes a=false ∧ (handle s.world a).any s.lost=false

instance (s : Scene μ) (a : ConnectionObjects.Act η σ φ δ) : Decidable (Regular s a) :=
  inferInstanceAs (Decidable (_ ∧ _))

section Settling

/-- Connections which are being disconnected count as disconnected. -/
def settleHeap (busy : List ℕ) (heap : List (InternalConnection μ)) :
    List (InternalConnection μ) :=
  heap.mapIdx fun c conn => if c∈busy then {conn with connected := false} else conn

/-- The same in a registry. -/
def settleRegistry (busy : List ℕ) (r : Registry μ) : Registry μ :=
  {r with heap := settleHeap busy r.heap}

/-- The same among everything subscriptions are made of. -/
def settle (busy : List ℕ) (w : World μ) : World μ :=
  {w with registry := settleRegistry busy w.registry}

/-- The subscriptions as they are once all disconnects have ended. -/
def Scene.settled (s : Scene μ) : World μ := settle (disconnecting s.pending) s.world

/-- Every connection keeps its number. -/
theorem settleHeap_length (busy : List ℕ) (heap : List (InternalConnection μ)) :
    (settleHeap busy heap).length=heap.length := List.length_mapIdx

/-- One connection. -/
theorem getElem?_settleHeap (busy : List ℕ) (heap : List (InternalConnection μ)) (c : ℕ) :
    (settleHeap busy heap)[c]?=
      heap[c]?.map fun conn => if c∈busy then {conn with connected := false} else conn :=
  List.getElem?_mapIdx

/-- Nothing is being disconnected. -/
theorem settleHeap_nil (heap : List (InternalConnection μ)) : settleHeap [] heap=heap := by
  refine List.ext_getElem? fun c => ?_
  rw [getElem?_settleHeap]
  simp only [List.not_mem_nil,if_false,Option.map_id']

/-- A new connection is not being disconnected. -/
theorem settleHeap_concat {busy : List ℕ} {heap : List (InternalConnection μ)}
    (h : ∀ c∈busy,c < heap.length) (conn : InternalConnection μ) :
    settleHeap busy (heap++[conn])=settleHeap busy heap++[conn] := by
  have hnew : heap.length∉busy := fun hc => Nat.lt_irrefl _ (h _ hc)
  rw [settleHeap,List.mapIdx_concat,if_neg hnew]
  rfl

/-- Lowering a flag, before or after the others count as lowered. -/
theorem settleHeap_modify (busy : List ℕ) (heap : List (InternalConnection μ)) (c : ℕ) :
    settleHeap busy (heap.modify c fun conn => {conn with connected := false})=
        settleHeap (c::busy) heap ∧
      (settleHeap busy heap).modify c (fun conn => {conn with connected := false})=
        settleHeap (c::busy) heap := by
  have hmem : ∀ i,c≠i → (i∈c::busy ↔ i∈busy) := fun i hi => by
    rw [List.mem_cons]
    exact or_iff_right fun heq => hi heq.symm
  refine ⟨List.ext_getElem? fun i => ?_,List.ext_getElem? fun i => ?_⟩
  all_goals
    simp only [getElem?_settleHeap,List.getElem?_modify]
    cases heap[i]? with
    | none => rfl
    | some conn =>
      by_cases hi : c=i
      · subst hi
        simp only [if_true,Option.map_eq_map,Option.map_some,List.mem_cons_self]
        split <;> rfl
      · simp only [if_neg hi,Option.map_eq_map,Option.map_some,hmem i hi]

/-- Writing an entry is modifying it. -/
theorem set_eq_modify {heap : List (InternalConnection μ)} {c : ℕ} {conn : InternalConnection μ}
    (h : heap[c]?=some conn) : heap.set c {conn with connected := false}=
      heap.modify c fun conn => {conn with connected := false} := by
  refine List.ext_getElem? fun i => ?_
  rw [List.getElem?_modify]
  by_cases hi : c=i
  · subst hi
    obtain ⟨hlt,-⟩ := List.getElem?_eq_some_iff.mp h
    rw [List.getElem?_set_self hlt,h]
    simp only [if_true,Option.map_eq_map,Option.map_some]
  · rw [List.getElem?_set_ne hi]
    simp only [if_neg hi,Option.map_eq_map,Option.map_id']

end Settling

section Commuting

variable {busy : List ℕ} {r r' : Registry μ} {a b k : ℕ}

/-- Connecting does not depend on the flags. -/
theorem connect_settle {addr : ℕ} {method : μ} (hbusy : ∀ c∈busy,c < r.heap.length)
    (h : r.connect k addr method=some r') :
    (settleRegistry busy r).connect k addr method=some (settleRegistry busy r') := by
  unfold Registry.connect at h
  split at h
  · cases h
  · rename_i S hS
    split at h
    · cases h
    · rename_i hfree
      cases h
      have hS' : (settleRegistry busy r).sync k=some S := hS
      have hfree' : ¬(settleRegistry busy r).taken addr=true := hfree
      have hlen : (settleRegistry busy r).heap.length=r.heap.length := settleHeap_length busy r.heap
      simp only [Registry.connect,hS',if_neg hfree',hlen]
      rw [settleRegistry,settleRegistry,settleHeap_concat hbusy]

/-- Nor does copying. -/
theorem copyConstruct_settle {addrs : List ℕ} (h : r.copyConstruct b addrs=some r') :
    (settleRegistry busy r).copyConstruct b addrs=some (settleRegistry busy r') := by
  unfold Registry.copyConstruct at h
  split at h
  · cases h
  · rename_i B hB
    split at h
    · rename_i hc
      cases h
      have hB' : (settleRegistry busy r).sync b=some B := hB
      have hfree : ∀ addr∈addrs,(settleRegistry busy r).taken addr=false := hc.2.2
      simp only [Registry.copyConstruct,hB',if_pos (And.intro hc.1 (And.intro hc.2.1 hfree))]
      rfl
    · cases h

/-- Nor does moving. -/
theorem moveConstruct_settle (h : r.moveConstruct b=some r') :
    (settleRegistry busy r).moveConstruct b=some (settleRegistry busy r') := by
  unfold Registry.moveConstruct at h
  split at h
  · cases h
  · rename_i B hB
    cases h
    have hB' : (settleRegistry busy r).sync b=some B := hB
    simp only [Registry.moveConstruct,hB']
    rfl

/-- Nor does copy assignment. -/
theorem copyAssign_settle {addrs : List ℕ} (h : r.copyAssign a b addrs=some r') :
    (settleRegistry busy r).copyAssign a b addrs=some (settleRegistry busy r') := by
  unfold Registry.copyAssign at h
  split at h
  · rename_i A B hA hB
    have hA' : (settleRegistry busy r).sync a=some A := hA
    have hB' : (settleRegistry busy r).sync b=some B := hB
    split at h
    · rename_i hab
      cases h
      simp only [Registry.copyAssign,hA',hB',if_pos hab]
    · rename_i hab
      split at h
      · rename_i hc
        cases h
        have hfree : ∀ addr∈addrs,addr∈A.addrs ∨ (settleRegistry busy r).taken addr=false :=
          hc.2.2
        simp only [Registry.copyAssign,hA',hB',if_neg hab,
          if_pos (And.intro hc.1 (And.intro hc.2.1 hfree))]
        rfl
      · cases h
  · cases h

/-- Nor does move assignment. -/
theorem moveAssign_settle (h : r.moveAssign a b=some r') :
    (settleRegistry busy r).moveAssign a b=some (settleRegistry busy r') := by
  unfold Registry.moveAssign at h
  split at h
  · rename_i A B hA hB
    have hA' : (settleRegistry busy r).sync a=some A := hA
    have hB' : (settleRegistry busy r).sync b=some B := hB
    split at h
    · cases h
    · rename_i hab
      cases h
      simp only [Registry.moveAssign,hA',hB',if_neg hab]
      rfl
  · cases h

/-- Nor does destroying. -/
theorem destroy_settle (h : r.destroy k=some r') :
    (settleRegistry busy r).destroy k=some (settleRegistry busy r') := by
  unfold Registry.destroy at h
  split at h
  · cases h
  · rename_i S hS
    cases h
    have hS' : (settleRegistry busy r).sync k=some S := hS
    simp only [Registry.destroy,hS']
    rfl

/-- The connection is the same but for its flag. -/
theorem getElem?_settle {c : ℕ} {conn : InternalConnection μ} (h : r.heap[c]?=some conn)
    (hc : c∉busy) : (settleRegistry busy r).heap[c]?=some conn := by
  change (settleHeap busy r.heap)[c]?=some conn
  rw [getElem?_settleHeap,h,Option.map_some,if_neg hc]

/-- A disconnect depends on no flag but its own. -/
theorem disconnect_settle {c : ℕ} (hc : r.locks c=true → c∉busy) (h : r.disconnect c=some r') :
    (settleRegistry busy r).disconnect c=some (settleRegistry busy r') := by
  unfold Registry.disconnect at h
  split at h
  · rename_i hlocks
    have hlocks' : (settleRegistry busy r).locks c=true := hlocks
    have hfree := hc hlocks
    unfold Registry.disconnectConn at h
    split at h
    · cases h
    · rename_i conn hconn
      have hconn' := getElem?_settle hconn hfree
      split at h
      · rename_i hflag
        split at h
        · cases h
        · rename_i S hS
          cases h
          have hS' : ((settleRegistry busy r).sync conn.registered).bind
            (fun S => S.erase conn.it)=some S := hS
          have hheap : settleHeap busy (r.heap.set c {conn with connected := false})=
              (settleHeap busy r.heap).set c {conn with connected := false} := by
            obtain ⟨hbefore,hafter⟩ := settleHeap_modify busy r.heap c
            have hset := set_eq_modify hconn'
            change (settleHeap busy r.heap).set c _=(settleHeap busy r.heap).modify c _ at hset
            rw [set_eq_modify hconn,hset,hbefore,hafter]
          simp only [Registry.disconnect,if_pos hlocks',Registry.disconnectConn,hconn',
            if_pos hflag,hS']
          rw [settleRegistry,settleRegistry,hheap]
      · rename_i hflag
        cases h
        simp only [Registry.disconnect,if_pos hlocks',Registry.disconnectConn,hconn',if_neg hflag]
  · rename_i hlocks
    cases h
    have hlocks' : ¬(settleRegistry busy r).locks c=true := hlocks
    rw [Registry.disconnect,if_neg hlocks']

/-- What unlinks the node and lets its disconnect stand in its middle is a whole
disconnect. -/
theorem unlink_settle {c : ℕ} (hc : r.locks c=true → c∉busy) (h : unlink r c=some r') :
    (settleRegistry busy r).disconnect c=some (settleRegistry (c::busy) r') := by
  unfold unlink at h
  split at h
  · cases h
  · rename_i conn hconn
    split at h
    · rename_i hflag
      split at h
      · cases h
      · rename_i S hS
        cases h
        have hlocks' : (settleRegistry busy r).locks c=true := hflag.1
        have hconn' := getElem?_settle hconn (hc hflag.1)
        have hS' : ((settleRegistry busy r).sync conn.registered).bind
          (fun S => S.erase conn.it)=some S := hS
        have hheap := set_eq_modify hconn'
        change (settleHeap busy r.heap).set c _=(settleHeap busy r.heap).modify c _ at hheap
        rw [(settleHeap_modify busy r.heap c).2] at hheap
        simp only [Registry.disconnect,if_pos hlocks',Registry.disconnectConn,hconn',
          if_pos hflag.2,hS']
        rw [settleRegistry,settleRegistry,hheap]
    · cases h

/-- When it ends nothing changes any more. -/
theorem lower_settle (busy : List ℕ) (r : Registry μ) (c : ℕ) :
    settleRegistry busy (lower r c)=settleRegistry (c::busy) r :=
  congrArg (Registry.mk r.syncs) (settleHeap_modify busy r.heap c).1

/-- Handles of the caller do not depend on flags. -/
theorem returned_settle (busy : List ℕ) (w : World μ) (o : Option ℕ) :
    (settle busy w).returned o=w.returned o := by
  unfold World.returned
  change (o.all fun c => decide (c < (settleHeap busy w.registry.heap).length))=_
  rw [settleHeap_length]

/-- An operation which disconnects nothing that is being disconnected does the same
when those count as disconnected. -/
theorem next_settle {w w' : World (Method η σ φ δ)} {a : ConnectionObjects.Act η σ φ δ}
    (hbusy : ∀ c∈busy,c < w.registry.heap.length)
    (hhandle : ∀ c∈handle w a,w.registry.locks c=true → c∉busy)
    (h : ConnectionObjects.next w a=some w') :
    ConnectionObjects.next (settle busy w) a=some (settle busy w') := by
  have hrewritten : ∀ {r : Registry (Method η σ φ δ)},
      (settle busy w).withRegistry (some (settleRegistry busy r))=
        some (settle busy {w with registry := r}) := rfl
  cases a with
  | create =>
    cases h
    rfl
  | copySync b addrs =>
    obtain ⟨r,hr,rfl⟩ := withRegistry_eq_some h
    exact (congrArg _ (copyConstruct_settle hr)).trans hrewritten
  | moveSync b =>
    obtain ⟨r,hr,rfl⟩ := withRegistry_eq_some h
    exact (congrArg _ (moveConstruct_settle hr)).trans hrewritten
  | copyAssignSync a b addrs =>
    obtain ⟨r,hr,rfl⟩ := withRegistry_eq_some h
    exact (congrArg _ (copyAssign_settle hr)).trans hrewritten
  | moveAssignSync a b =>
    obtain ⟨r,hr,rfl⟩ := withRegistry_eq_some h
    exact (congrArg _ (moveAssign_settle hr)).trans hrewritten
  | destroySync k =>
    obtain ⟨r,hr,rfl⟩ := withRegistry_eq_some h
    exact (congrArg _ (destroy_settle hr)).trans hrewritten
  | connect k addr f =>
    obtain ⟨r,hr,rfl⟩ := withRegistry_eq_some h
    exact (congrArg _ (connect_settle hbusy hr)).trans hrewritten
  | connectBind k addr obj ptrFunc =>
    simp only [ConnectionObjects.next,connectBind_eq_connect] at h ⊢
    obtain ⟨r,hr,rfl⟩ := withRegistry_eq_some h
    exact (congrArg _ (connect_settle hbusy hr)).trans hrewritten
  | connectSync k addr callback =>
    obtain ⟨r,hr,rfl⟩ := withRegistry_eq_some h
    exact (congrArg _ (connect_settle hbusy hr)).trans hrewritten
  | connectFast k addr queue =>
    obtain ⟨r,hr,rfl⟩ := withRegistry_eq_some h
    exact (congrArg _ (connect_settle hbusy hr)).trans hrewritten
  | connectDelay k addr priority delay queue =>
    obtain ⟨r,hr,rfl⟩ := withRegistry_eq_some h
    exact (congrArg _ (connect_settle hbusy hr)).trans hrewritten
  | disconnect c =>
    obtain ⟨r,hr,rfl⟩ := withRegistry_eq_some h
    exact (congrArg _ (disconnect_settle (hhandle c rfl) hr)).trans hrewritten
  | construct o =>
    cases next_effect h with
    | construct _ hret =>
      simp only [ConnectionObjects.next,World.construct,returned_settle,if_pos hret]
      rfl
    | connect _ _ _ _ _ ha _ => cases ha
  | assign p o =>
    cases next_effect h with
    | assign _ held _ ho hret =>
      have ho' : live (settle busy w).objs p=some held := ho
      simp only [ConnectionObjects.next,World.assign,ho',returned_settle,if_pos hret]
      rfl
    | connect _ _ _ _ _ ha _ => cases ha
  | moveConstruct p =>
    cases next_effect h with
    | moveConstruct _ o hp =>
      have hp' : live (settle busy w).objs p=some o := hp
      simp only [ConnectionObjects.next,World.moveConstruct,hp']
      rfl
    | connect _ _ _ _ _ ha _ => cases ha
  | moveAssign o p =>
    simp only [ConnectionObjects.next,World.moveAssign] at h
    split at h
    · rename_i held other ho hp
      have ho' : live (settle busy w).objs o=some held := ho
      have hp' : live (settle busy w).objs p=some other := hp
      split at h
      · rename_i hop
        cases h
        simp only [ConnectionObjects.next,World.moveAssign,ho',hp',if_pos hop]
      · rename_i hop
        cases h
        simp only [ConnectionObjects.next,World.moveAssign,ho',hp',if_neg hop]
        rfl
    · cases h
  | destroy o =>
    cases next_effect h with
    | destroy _ held r ho hr =>
      have ho' : live (settle busy w).objs o=some held := ho
      cases held with
      | none =>
        cases hr
        simp only [ConnectionObjects.next,World.destroy,ho']
        rfl
      | some c =>
        have hc : c∈handle w (.destroy o : ConnectionObjects.Act η σ φ δ) := by
          change (live w.objs o).join=some c
          rw [ho]
          rfl
        have hr' : (settle busy w).registry.release (some c)=some (settleRegistry busy r) :=
          disconnect_settle (hhandle c hc) hr
        simp only [ConnectionObjects.next,World.destroy,ho',hr']
        rfl
    | connect _ _ _ _ _ ha _ => cases ha

end Commuting

section Steps

/-- What the rest of an operation in its middle relies on. -/
def Pending.Underway (r : Registry μ) : Pending → Prop
  | .disconnecting c => c < r.heap.length
  | .copyAssigning a b | .moveAssigning a b =>
    a≠b ∧ (∃ A,r.sync a=some A) ∧ ∃ B,r.sync b=some B

/-- All operations in their middle can go on. -/
def Scene.Underway (s : Scene μ) : Prop := ∀ p∈s.pending,p.Underway s.world.registry

/-- The operation of a step. -/
def Act.operation : Act η σ φ δ → Option (ConnectionObjects.Act η σ φ δ)
  | .whole a | .begins a => some a
  | .ends => none

/-- What one accepted step does which is no fault, seen on the settled
subscriptions. -/
inductive Effect (s : Scene (Method η σ φ δ)) :
    Act η σ φ δ → Scene (Method η σ φ δ) → Prop
  | whole (a : ConnectionObjects.Act η σ φ δ) (s' : Scene (Method η σ φ δ)) :
      Regular s a → ConnectionObjects.next s.settled a=some s'.settled →
      s'.pending=s.pending → Effect s (.whole a) s'
  | unlinks (a : ConnectionObjects.Act η σ φ δ) (c : ℕ) (s' : Scene (Method η σ φ δ)) :
      Regular s a → handle s.world a=some c → c < s.world.registry.heap.length →
      ConnectionObjects.next s.settled a=some s'.settled →
      s'.pending=.disconnecting c::s.pending → Effect s (.begins a) s'
  | copies (a b : ℕ) (addrs : List ℕ) (A B : Sync (Method η σ φ δ))
      (s' : Scene (Method η σ φ δ)) : a≠b →
      s.settled.registry.sync a=some A → s.settled.registry.sync b=some B →
      addrs.length=B.registered.length → addrs.Nodup →
      s'.settled.registry.heap=s.settled.registry.heap →
      Rewrites s.settled.registry a (some ⟨copyNodes B.registered addrs,A.conns⟩)
        s'.settled.registry →
      s'.pending=.copyAssigning a b::s.pending → Effect s (.begins (.copyAssignSync a b addrs)) s'
  | clears (a b : ℕ) (A B : Sync (Method η σ φ δ)) (s' : Scene (Method η σ φ δ)) :
      a≠b → s.settled.registry.sync a=some A →
      s.settled.registry.sync b=some B → s'.settled.registry.heap=s.settled.registry.heap →
      Rewrites s.settled.registry a (some ⟨[],A.conns⟩) s'.settled.registry →
      s'.pending=.moveAssigning a b::s.pending → Effect s (.begins (.moveAssignSync a b)) s'
  | lowers (c : ℕ) (s' : Scene (Method η σ φ δ)) : s.pending=.disconnecting c::s'.pending →
      s'.settled=s.settled → Effect s .ends s'
  | assigns (a b : ℕ) (A B : Sync (Method η σ φ δ)) (s' : Scene (Method η σ φ δ)) :
      s.pending=.copyAssigning a b::s'.pending → s.settled.registry.sync a=some A →
      s.settled.registry.sync b=some B → s'.settled.registry.heap=s.settled.registry.heap →
      Rewrites s.settled.registry a (some ⟨A.registered,B.conns⟩) s'.settled.registry →
      Effect s .ends s'
  | moves (a b : ℕ) (s' : Scene (Method η σ φ δ)) : s.pending=.moveAssigning a b::s'.pending →
      ConnectionObjects.next s.settled (.moveAssignSync a b)=some s'.settled → Effect s .ends s'

/-- A regular operation disconnects nothing that is being disconnected, and erases
a node which is there. -/
theorem Regular.handle_found {s : Scene μ} {a : ConnectionObjects.Act η σ φ δ} {c : ℕ}
    (h : Regular s a) (hc : handle s.world a=some c) (hl : s.world.registry.locks c=true) :
    c∉disconnecting s.pending ∧ (s.world.registry.disconnect c).isSome=true := by
  have hlost := h.2
  rw [hc,Option.any_some,Scene.lost,hl,Bool.true_and,Bool.or_eq_false_iff] at hlost
  obtain ⟨hbusy,hnone⟩ := hlost
  rw [Option.isNone_eq_false_iff] at hnone
  exact ⟨of_decide_eq_false hbusy,hnone⟩

/-- Connections which are being disconnected exist. -/
theorem Scene.Underway.lt_length {s : Scene μ} (h : s.Underway) :
    ∀ c∈disconnecting s.pending,c < s.world.registry.heap.length := by
  intro c hc
  obtain ⟨p,hp,hpc⟩ := List.mem_filterMap.mp hc
  have hunder := h p hp
  cases p with
  | disconnecting d =>
    cases hpc
    exact hunder
  | copyAssigning a b => cases hpc
  | moveAssigning a b => cases hpc

/-- An attempt is a fault of an operation which is not regular, or what comes of
a regular one. -/
theorem attempt_cases {s s' : Scene μ} {a : ConnectionObjects.Act η σ φ δ}
    {outcome : Option (Scene μ)} (h : s.attempt a outcome=some s') :
    (∃ f,¬Regular s a ∧ s'={s with fault := some f}) ∨ Regular s a ∧ outcome=some s' := by
  unfold Scene.attempt at h
  split at h
  · rename_i hclash
    cases h
    refine .inl ⟨_,fun hreg => ?_,rfl⟩
    exact Bool.noConfusion (hreg.1.symm.trans hclash)
  · rename_i hclash
    split at h
    · rename_i hlost
      cases h
      refine .inl ⟨_,fun hreg => ?_,rfl⟩
      exact Bool.noConfusion (hreg.2.symm.trans hlost)
    · rename_i hlost
      exact .inr ⟨⟨eq_false_of_ne_true hclash,eq_false_of_ne_true hlost⟩,h⟩

/-- Unlinking makes an operation stand in its middle. -/
theorem suspend_unlink {s s' : Scene (Method η σ φ δ)} {a : ConnectionObjects.Act η σ φ δ}
    {c : ℕ} {objs : List (Option (Option ℕ))} (hreg : Regular s a)
    (hc : handle s.world a=some c)
    (hsame : ∀ r,s.settled.registry.disconnect c=some r →
      ConnectionObjects.next s.settled a=some {s.settled with registry := r,objs := objs})
    (h : s.suspend (.disconnecting c) objs (unlink s.world.registry c)=some s') :
    Effect s (.begins a) s' := by
  obtain ⟨r,hr,rfl⟩ := Option.map_eq_some_iff.mp h
  have hlt : c < s.world.registry.heap.length := by
    unfold unlink at hr
    split at hr
    · cases hr
    · rename_i conn hconn
      exact (List.getElem?_eq_some_iff.mp hconn).1
  refine .unlinks a c _ hreg hc hlt ?_ rfl
  exact hsame _ (unlink_settle (fun hl => (hreg.handle_found hc hl).1) hr)

/-- The first part of a regular operation. -/
theorem enter_effect {s s' : Scene (Method η σ φ δ)} {a : ConnectionObjects.Act η σ φ δ}
    (hreg : Regular s a) (h : s.enter a=some s') : Effect s (.begins a) s' := by
  cases a with
  | disconnect c =>
    refine suspend_unlink hreg rfl (fun r hr => ?_) h
    simp only [ConnectionObjects.next,World.withRegistry,hr,Option.map_some]
    rfl
  | destroy o =>
    simp only [Scene.enter] at h
    split at h
    · rename_i c ho
      have hc : handle s.world (.destroy o : ConnectionObjects.Act η σ φ δ)=some c := by
        change (live s.world.objs o).join=some c
        rw [ho]
        rfl
      refine suspend_unlink hreg hc (fun r hr => ?_) h
      have ho' : live s.settled.objs o=some (some c) := ho
      simp only [ConnectionObjects.next,World.destroy,ho',Registry.release,hr]
      rfl
    · cases h
  | copyAssignSync a b addrs =>
    obtain ⟨r,hr,rfl⟩ := Option.map_eq_some_iff.mp h
    unfold assignNodes at hr
    split at hr
    · rename_i A B hA hB
      split at hr
      · rename_i hc
        cases hr
        exact .copies a b addrs A B _ hc.1 hA hB hc.2.1 hc.2.2.1 rfl
          (rewrites_set (r := s.settled.registry) hA _ _) rfl
      · cases hr
    · cases hr
  | moveAssignSync a b =>
    obtain ⟨r,hr,rfl⟩ := Option.map_eq_some_iff.mp h
    unfold clearNodes at hr
    split at hr
    · rename_i A B hA hB
      split at hr
      · rename_i hne
        cases hr
        exact .clears a b A B _ hne hA hB rfl
          (rewrites_set (r := s.settled.registry) hA _ _) rfl
      · cases hr
    · cases hr
  | _ => cases h

/-- The rest of an operation. -/
theorem leave_effect {s s' : Scene (Method η σ φ δ)} (h : s.leave=some s') :
    Effect s .ends s' := by
  simp only [Scene.leave] at h
  split at h
  · cases h
  · rename_i p pending hpending
    obtain ⟨r,hr,rfl⟩ := Option.map_eq_some_iff.mp h
    have hbusy : s.settled=settle (disconnecting (p::pending)) s.world := by
      rw [Scene.settled,hpending]
    cases p with
    | disconnecting c =>
      cases hr
      refine .lowers c _ hpending ?_
      rw [hbusy]
      exact congrArg (fun registry => {s.world with registry := registry})
        (lower_settle (disconnecting pending) s.world.registry c)
    | copyAssigning a b =>
      simp only [Pending.finish,assignConns] at hr
      split at hr
      · rename_i A B hA hB
        cases hr
        refine .assigns a b A B _ hpending hA hB ?_ ?_
        · rw [hbusy]
          rfl
        · rw [hbusy]
          exact rewrites_set (r := settleRegistry (disconnecting pending) s.world.registry) hA _ _
      · cases hr
    | moveAssigning a b =>
      refine .moves a b _ hpending ?_
      rw [hbusy]
      have hmoved : (settleRegistry (disconnecting pending) s.world.registry).moveAssign a b=
          some (settleRegistry (disconnecting pending) r) := moveAssign_settle hr
      exact congrArg (Option.map fun registry => {s.world with registry := registry}) hmoved

/-- Every accepted step is a fault of an operation which is not regular, or one of
these. -/
theorem next_effect {s s' : Scene (Method η σ φ δ)} {act : Act η σ φ δ} (hunder : s.Underway)
    (h : next s act=some s') :
    (∃ a f,act.operation=some a ∧ ¬Regular s a ∧ s'={s with fault := some f}) ∨
      Effect s act s' := by
  unfold next at h
  split at h
  · cases h
  cases act with
  | whole a =>
    rcases attempt_cases h with ⟨f,hreg,rfl⟩|⟨hreg,houtcome⟩
    · exact .inl ⟨a,f,rfl,hreg,rfl⟩
    · obtain ⟨world,hworld,rfl⟩ := Option.map_eq_some_iff.mp houtcome
      refine .inr (.whole a _ hreg ?_ rfl)
      exact next_settle hunder.lt_length (fun c hc hl => (hreg.handle_found hc hl).1) hworld
  | begins a =>
    rcases attempt_cases h with ⟨f,hreg,rfl⟩|⟨hreg,houtcome⟩
    · exact .inl ⟨a,f,rfl,hreg,rfl⟩
    · exact .inr (enter_effect hreg houtcome)
  | ends => exact .inr (leave_effect h)

/-- The first part of an operation is no fault. -/
theorem fault_of_enter {s s' : Scene μ} {a : ConnectionObjects.Act η σ φ δ}
    (h : s.enter a=some s') : s'.fault=s.fault := by
  have hsuspend : ∀ {p objs} {r : Option (Registry μ)},
      s.suspend p objs r=some s' → s'.fault=s.fault := by
    intro p objs r hs'
    obtain ⟨_,-,rfl⟩ := Option.map_eq_some_iff.mp hs'
    rfl
  cases a with
  | disconnect c => exact hsuspend h
  | copyAssignSync a b addrs => exact hsuspend h
  | moveAssignSync a b => exact hsuspend h
  | destroy o =>
    simp only [Scene.enter] at h
    split at h
    · exact hsuspend h
    · cases h
  | _ => cases h

/-- Regular operations and the ends of operations are no faults. -/
theorem fault_of_regular {s s' : Scene (Method η σ φ δ)} {act : Act η σ φ δ}
    (h : next s act=some s') (hreg : ∀ a,act.operation=some a → Regular s a) :
    s'.fault=s.fault := by
  have houtcome : ∀ {a : ConnectionObjects.Act η σ φ δ}
      {outcome : Option (Scene (Method η σ φ δ))},Regular s a → s.attempt a outcome=some s' →
        outcome=some s' := by
    intro a outcome ha hs'
    rcases attempt_cases hs' with ⟨f,hnot,-⟩|⟨-,hdone⟩
    · exact absurd ha hnot
    · exact hdone
  unfold next at h
  split at h
  · cases h
  cases act with
  | whole a =>
    obtain ⟨_,-,rfl⟩ := Option.map_eq_some_iff.mp (houtcome (hreg a rfl) h)
    rfl
  | begins a => exact fault_of_enter (houtcome (hreg a rfl) h)
  | ends =>
    simp only [Scene.leave] at h
    split at h
    · cases h
    · obtain ⟨_,-,rfl⟩ := Option.map_eq_some_iff.mp h
      rfl

/-- How many operations are in their middle afterwards. -/
theorem pending_step {s s' : Scene (Method η σ φ δ)} {act : Act η σ φ δ} (h : Effect s act s') :
    match act with
    | .whole _ => s'.pending.length=s.pending.length
    | .begins _ => s'.pending.length=s.pending.length+1
    | .ends => s.pending.length=s'.pending.length+1 := by
  cases h with
  | whole _ _ _ _ hpending | unlinks _ _ _ _ _ _ _ hpending => exact congrArg List.length hpending
  | copies _ _ _ _ _ _ _ _ _ _ _ _ _ hpending => exact congrArg List.length hpending
  | clears _ _ _ _ _ _ _ _ _ _ hpending => exact congrArg List.length hpending
  | lowers _ _ hpending | assigns _ _ _ _ _ hpending | moves _ _ _ hpending =>
    exact congrArg List.length hpending

/-- Rewriting one slot leaves all living objects alive. -/
theorem alive_of_rewrites {r r' : Registry μ} {j k : ℕ} {S T : Sync μ}
    (h : Rewrites r k (some T) r') (hS : r.sync j=some S) : ∃ S',r'.sync j=some S' := by
  by_cases hj : j=k
  · exact ⟨T,hj ▸ h.here⟩
  · exact ⟨S,(h.elsewhere j hj).trans hS⟩

/-- So does moving an object from one slot to another. -/
theorem alive_of_moved {r r' : Registry μ} {a b j : ℕ} {B S : Sync μ} (hto : r'.sync a=some B)
    (hfrom : r'.sync b=some Sync.fresh) (hother : ∀ j,j≠a → j≠b → r'.sync j=r.sync j)
    (hS : r.sync j=some S) : ∃ S',r'.sync j=some S' := by
  by_cases ha : j=a
  · exact ⟨B,ha ▸ hto⟩
  · by_cases hb : j=b
    · exact ⟨Sync.fresh,hb ▸ hfrom⟩
    · exact ⟨S,(hother j ha hb).trans hS⟩

/-- A disconnect destroys no `sync`. -/
theorem alive_of_disconnect {r r' : Registry μ} {c j : ℕ} {S : Sync μ}
    (h : r.disconnect c=some r') (hS : r.sync j=some S) : ∃ S',r'.sync j=some S' := by
  unfold Registry.disconnect at h
  split at h
  · obtain ⟨conn,-,⟨-,rfl⟩|⟨T,-,-,-,-,hrw⟩⟩ := disconnectConn_eq_some h
    · exact ⟨S,hS⟩
    · exact alive_of_rewrites hrw hS
  · cases h
    exact ⟨S,hS⟩

/-- Only destroying a `sync` ends its life. -/
theorem alive_of_next {w w' : World (Method η σ φ δ)} {a : ConnectionObjects.Act η σ φ δ}
    {j : ℕ} {S : Sync (Method η σ φ δ)} (h : ConnectionObjects.next w a=some w')
    (hS : w.registry.sync j=some S) (hj : destroyed a≠some j) :
    ∃ S',w'.registry.sync j=some S' := by
  cases ConnectionObjects.next_effect h with
  | create => exact alive_of_rewrites (rewrites_append _ _) hS
  | construct | assign | moveConstruct | moveSelf | moveAssign => exact ⟨S,hS⟩
  | copySync b addrs r hr =>
    obtain ⟨B,-,-,-,-,hrw⟩ := copyConstruct_eq_some hr
    exact alive_of_rewrites hrw hS
  | moveSync b r hr =>
    obtain ⟨B,-,-,hfrom,hto,hother,-⟩ := moveConstruct_eq_some hr
    exact alive_of_moved hto hfrom (fun i ha hb => hother i hb ha) hS
  | copyAssignSync a b addrs r hr =>
    rcases copyAssign_eq_some hr with rfl|⟨A,B,-,-,-,-,-,-,hrw⟩
    · exact ⟨S,hS⟩
    · exact alive_of_rewrites hrw hS
  | moveAssignSync a b r hr =>
    obtain ⟨A,B,-,-,-,-,hto,hfrom,hother,-⟩ := moveAssign_eq_some hr
    exact alive_of_moved hto hfrom hother hS
  | destroySync k r hr =>
    obtain ⟨-,hrw⟩ := destroy_eq_some hr
    have hne : j≠k := fun heq => hj (congrArg some heq.symm)
    exact ⟨S,(hrw.elsewhere j hne).trans hS⟩
  | connect _ k addr method r _ hr =>
    obtain ⟨T,-,-,-,hrw⟩ := connect_eq_some hr
    exact alive_of_rewrites hrw hS
  | disconnect c r hr => exact alive_of_disconnect hr hS
  | destroy o held r ho hr =>
    cases held with
    | none =>
      cases hr
      exact ⟨S,hS⟩
    | some c => exact alive_of_disconnect hr hS

/-- Connections are never forgotten. -/
theorem length_le_of_next {w w' : World (Method η σ φ δ)} {a : ConnectionObjects.Act η σ φ δ}
    (h : ConnectionObjects.next w a=some w') :
    w.registry.heap.length ≤ w'.registry.heap.length := by
  rcases heap_effect h with ⟨-,hheap⟩|⟨k,addr,method,-,hheap⟩|⟨c,conn,-,-,-,hheap⟩
  · rw [hheap]
  · rw [hheap,List.length_append]
    exact Nat.le_add_right _ _
  · rw [hheap,List.length_set]

/-- An operation can go on while its connection exists and its objects live. -/
theorem Pending.Underway.mono {p : Pending} {r r' : Registry μ} (h : p.Underway r)
    (hlen : r.heap.length ≤ r'.heap.length)
    (halive : ∀ k S,p.uses k=true → r.sync k=some S → ∃ S',r'.sync k=some S') :
    p.Underway r' := by
  cases p with
  | disconnecting c => exact Nat.lt_of_lt_of_le h hlen
  | copyAssigning a b | moveAssigning a b =>
    obtain ⟨hne,⟨A,hA⟩,B,hB⟩ := h
    exact ⟨hne,halive a A (decide_eq_true (.inl rfl)) hA,
      halive b B (decide_eq_true (.inr rfl)) hB⟩

/-- A regular operation destroys no `sync` which an operation in its middle uses. -/
theorem Regular.destroyed_ne {s : Scene μ} {a : ConnectionObjects.Act η σ φ δ} {p : Pending}
    {k : ℕ} (h : Regular s a) (hp : p∈s.pending) (hk : p.uses k=true) : destroyed a≠some k := by
  intro hd
  cases a with
  | destroySync j =>
    obtain rfl : j=k := Option.some.inj hd
    have hexcludes : p.excludes s.world (.destroySync j : ConnectionObjects.Act η σ φ δ)=true := by
      cases p with
      | disconnecting c => cases hk
      | copyAssigning a b | moveAssigning a b =>
        simp only [Pending.excludes,altered,List.any_cons,hk,Bool.true_or]
    have hclash : s.clashes (.destroySync j : ConnectionObjects.Act η σ φ δ)=true :=
      List.any_eq_true.mpr ⟨p,hp,hexcludes⟩
    exact Bool.noConfusion (h.1.symm.trans hclash)
  | _ => cases hd

/-- No step but a fault keeps an operation in its middle from going on. -/
theorem underway_step {s s' : Scene (Method η σ φ δ)} {act : Act η σ φ δ} (hunder : s.Underway)
    (h : next s act=some s') (hfault : s'.fault=none) : s'.Underway := by
  have hlength : ∀ u : Scene (Method η σ φ δ),
      u.settled.registry.heap.length=u.world.registry.heap.length := fun u =>
    settleHeap_length _ _
  -- what is seen on the settled subscriptions holds of the subscriptions themselves
  have hkeeps : ∀ p∈s.pending,
      s.settled.registry.heap.length ≤ s'.settled.registry.heap.length →
      (∀ k S,p.uses k=true → s.settled.registry.sync k=some S →
        ∃ S',s'.settled.registry.sync k=some S') → p.Underway s'.world.registry := by
    intro p hp hlen halive
    rw [hlength,hlength] at hlen
    exact (hunder p hp).mono hlen halive
  rcases next_effect hunder h with ⟨a,f,-,-,rfl⟩|heffect
  · cases hfault
  cases heffect with
  | whole a _ hreg hnext hpending =>
    intro p hp
    rw [hpending] at hp
    exact hkeeps p hp (length_le_of_next hnext) fun k S hk hS =>
      alive_of_next hnext hS (hreg.destroyed_ne hp hk)
  | unlinks a c _ hreg hc hlt hnext hpending =>
    have hlen := length_le_of_next hnext
    intro p hp
    rw [hpending] at hp
    rcases List.mem_cons.mp hp with rfl|hp
    · rw [hlength,hlength] at hlen
      exact Nat.lt_of_lt_of_le hlt hlen
    · exact hkeeps p hp hlen fun k S hk hS => alive_of_next hnext hS (hreg.destroyed_ne hp hk)
  | copies a b addrs A B _ hne hA hB _ _ hheap hrw hpending =>
    intro p hp
    rw [hpending] at hp
    rcases List.mem_cons.mp hp with rfl|hp
    · have halive : ∀ {j S},s.settled.registry.sync j=some S →
          ∃ S',s'.settled.registry.sync j=some S' := alive_of_rewrites hrw
      exact ⟨hne,halive hA,halive hB⟩
    · exact hkeeps p hp (Nat.le_of_eq (congrArg List.length hheap.symm)) fun k S _ hS =>
        alive_of_rewrites hrw hS
  | clears a b A B _ hne hA hB hheap hrw hpending =>
    intro p hp
    rw [hpending] at hp
    rcases List.mem_cons.mp hp with rfl|hp
    · have halive : ∀ {j S},s.settled.registry.sync j=some S →
          ∃ S',s'.settled.registry.sync j=some S' := alive_of_rewrites hrw
      exact ⟨hne,halive hA,halive hB⟩
    · exact hkeeps p hp (Nat.le_of_eq (congrArg List.length hheap.symm)) fun k S _ hS =>
        alive_of_rewrites hrw hS
  | lowers c _ hpending hsame =>
    intro p hp
    refine hkeeps p (hpending ▸ List.mem_cons_of_mem _ hp) ?_ fun k S _ hS => ?_
    · rw [hsame]
    · exact ⟨S,hsame ▸ hS⟩
  | assigns a b A B _ hpending hA hB hheap hrw =>
    intro p hp
    exact hkeeps p (hpending ▸ List.mem_cons_of_mem _ hp)
      (Nat.le_of_eq (congrArg List.length hheap.symm)) fun k S _ hS => alive_of_rewrites hrw hS
  | moves a b _ hpending hnext =>
    intro p hp
    exact hkeeps p (hpending ▸ List.mem_cons_of_mem _ hp) (length_le_of_next hnext)
      fun k S _ hS => alive_of_next hnext hS nofun

/-- The innermost operation can always go on to its end. -/
theorem ends_accepted {s : Scene (Method η σ φ δ)} (hunder : s.Underway) (hfault : s.fault=none)
    (hpending : s.pending≠[]) : ∃ s',next s .ends=some s' := by
  obtain ⟨p,pending,hp⟩ := List.exists_cons_of_ne_nil hpending
  have hfirst := hunder p (hp ▸ List.mem_cons_self)
  have hfinish : ∃ r,p.finish s.world.registry=some r := by
    cases p with
    | disconnecting c => exact ⟨_,rfl⟩
    | copyAssigning a b =>
      obtain ⟨-,⟨A,hA⟩,B,hB⟩ := hfirst
      simp only [Pending.finish,assignConns,hA,hB]
      exact ⟨_,rfl⟩
    | moveAssigning a b =>
      obtain ⟨hne,⟨A,hA⟩,B,hB⟩ := hfirst
      simp only [Pending.finish,Registry.moveAssign,hA,hB,if_neg hne]
      exact ⟨_,rfl⟩
  obtain ⟨r,hr⟩ := hfinish
  refine Option.isSome_iff_exists.mp ?_
  simp only [next,hfault,Option.isSome_none,Bool.false_eq_true,if_false,Scene.leave,hp,hr,
    Option.map_some,Option.isSome_some]

/-- Unlinking the node and lowering the flag is a disconnect. -/
theorem disconnect_of_unlink {r r₁ : Registry μ} {c : ℕ} (h : unlink r c=some r₁) :
    r.disconnect c=some (lower r₁ c) := by
  have hnil : ∀ u : Registry μ,settleRegistry [] u=u := fun u =>
    congrArg (Registry.mk u.syncs) (settleHeap_nil u.heap)
  have hwhole : (settleRegistry [] r).disconnect c=some (settleRegistry [c] r₁) :=
    unlink_settle (fun _ => List.not_mem_nil) h
  rwa [hnil,←lower_settle,hnil] at hwhole

/-- Assigning the nodes and then the vector is a copy assignment. -/
theorem copyAssign_of_assignNodes {r r₁ : Registry μ} {a b : ℕ} {addrs : List ℕ}
    (h : assignNodes r a b addrs=some r₁) : r.copyAssign a b addrs=assignConns r₁ a b := by
  unfold assignNodes at h
  split at h
  · rename_i A B hA hB
    split at h
    · rename_i hc
      cases h
      have hrw := rewrites_set hA (some ⟨copyNodes B.registered addrs,A.conns⟩) r.heap
      have hB' := (hrw.elsewhere b (Ne.symm hc.1)).trans hB
      simp only [Registry.copyAssign,hA,hB,if_neg hc.1,if_pos hc.2,assignConns,hrw.here,hB',
        List.set_set]
    · cases h
  · cases h

/-- Clearing the target first leaves a move assignment what it is. -/
theorem moveAssign_of_clearNodes {r r₁ : Registry μ} {a b : ℕ} (h : clearNodes r a b=some r₁) :
    r.moveAssign a b=r₁.moveAssign a b := by
  unfold clearNodes at h
  split at h
  · rename_i A B hA hB
    split at h
    · rename_i hne
      cases h
      have hrw := rewrites_set hA (some ⟨[],A.conns⟩) r.heap
      have hB' := (hrw.elsewhere b (Ne.symm hne)).trans hB
      simp only [Registry.moveAssign,hA,hB,if_neg hne,hrw.here,hB',List.set_set]
    · cases h
  · cases h

/-- An operation in whose middle nothing is done is a whole one. -/
theorem ends_of_begins {s s₁ : Scene (Method η σ φ δ)} {a : ConnectionObjects.Act η σ φ δ}
    (h : next s (.begins a)=some s₁) (hfault : s₁.fault=none) :
    next s₁ .ends=next s (.whole a) := by
  unfold next at h
  split at h
  · cases h
  rename_i hnone
  simp only [Scene.attempt] at h
  split at h
  · cases h
    cases hfault
  rename_i hclash
  split at h
  · cases h
    cases hfault
  rename_i hlost
  have hsame : s.enter a=some s₁ → s₁.leave=
      (ConnectionObjects.next s.world a).map fun world => {s with world := world} := by
    intro henter
    cases a with
    | disconnect c =>
      obtain ⟨r,hr,rfl⟩ := Option.map_eq_some_iff.mp henter
      have hwhole := disconnect_of_unlink hr
      simp only [ConnectionObjects.next,World.withRegistry,hwhole]
      rfl
    | destroy o =>
      simp only [Scene.enter] at henter
      split at henter
      · rename_i c ho
        obtain ⟨r,hr,rfl⟩ := Option.map_eq_some_iff.mp henter
        have hwhole := disconnect_of_unlink hr
        simp only [ConnectionObjects.next,World.destroy,ho,Registry.release,hwhole]
        rfl
      · cases henter
    | copyAssignSync a b addrs =>
      obtain ⟨r,hr,rfl⟩ := Option.map_eq_some_iff.mp henter
      have hwhole := copyAssign_of_assignNodes hr
      simp only [ConnectionObjects.next,World.withRegistry,hwhole,Scene.leave,Pending.finish,
        Option.map_map]
      rfl
    | moveAssignSync a b =>
      obtain ⟨r,hr,rfl⟩ := Option.map_eq_some_iff.mp henter
      have hwhole := moveAssign_of_clearNodes hr
      simp only [ConnectionObjects.next,World.withRegistry,hwhole,Scene.leave,Pending.finish,
        Option.map_map]
      rfl
    | _ => cases henter
  have hfault₁ : s₁.fault.isSome=true → False := by
    rw [hfault]
    exact Bool.noConfusion
  simp only [next,if_neg hnone,if_neg hfault₁,Scene.attempt,if_neg hclash,if_neg hlost,hsame h]

end Steps

end FastEventSystem.ErasedCallables
