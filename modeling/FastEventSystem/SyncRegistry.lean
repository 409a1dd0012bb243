import FastEventSystem.SlotTable
import Mathlib.Data.Int.Basic

/-!
# Handler lists, connections and their handles

A `sync` owns a linked list of handlers and a vector of shared connections. A
connection refers to one particular list and captures the iterator of its own
node; the caller of `connect` only gets a weak handle, so a handle can be
locked while some living `sync` has the connection in its vector. Node
addresses are chosen by the environment among the free ones, so a freed
address may come back. What the standard library leaves undefined, such as
erasing through an iterator of another list, is refused.

Every operation is one step here. Left out is what the destructor of an erased or
replaced callable does in the middle of it, and the order in which a special
member assigns the two fields of a `sync`: `ErasedCallables` takes the operations
apart there. Copying and moving a callable has no effect, and exceptions of the
allocator are left out.
-/

namespace FastEventSystem.SyncRegistry

open SlotTable

/-- The callables stored by the overloads of `connect`. -/
inductive Method (η σ φ δ : Type*)
  /-- A callable given by the caller. -/
  | functor (f : η)
  /-- `std::bind` of an object and one of its member functions. -/
  | bind (obj ptrFunc : η)
  /-- Calls another `sync`. -/
  | sync (callback : σ)
  /-- Sends to an `async_fast`. -/
  | fast (queue : φ)
  /-- Sends to an `async_delay` at the clock reading plus a delay. -/
  | delay (priority delay : ℤ) (queue : δ)
  deriving DecidableEq,Repr

/-- A node of a handler list. -/
structure Node (μ : Type*) where
  /-- Where the node lies in memory. -/
  addr : ℕ
  /-- The stored callable. -/
  method : μ
  /-- Number of the connect call which stored the callable; a history. -/
  origin : ℕ
  deriving DecidableEq,Repr

/-- An `internal_connection`; its number in the heap is its identity. -/
structure InternalConnection (μ : Type*) where
  /-- The iterator captured by `_deleter`. -/
  it : ℕ
  /-- The `sync` whose list `_registered` refers to. -/
  registered : ℕ
  /-- The flag `_connected`. -/
  connected : Bool
  /-- The callable given to connect; a history. -/
  method : μ
  deriving DecidableEq,Repr

/-- A `sync` object. -/
structure Sync (μ : Type*) where
  /-- The list `_registered`. -/
  registered : List (Node μ)
  /-- The vector `_conns` of shared connections. -/
  conns : List ℕ
  deriving DecidableEq,Repr

/-- All `sync` objects and all connections ever made. -/
structure Registry (μ : Type*) where
  /-- One slot for each `sync` object. -/
  syncs : List (Option (Sync μ))
  /-- The connections in the order of their connect calls. -/
  heap : List (InternalConnection μ)
  deriving DecidableEq,Repr

variable {μ : Type*}

/-- A default constructed `sync`, also what a move leaves behind. -/
def Sync.fresh : Sync μ := ⟨[],[]⟩

/-- The addresses of the nodes of a list. -/
def Sync.addrs (S : Sync μ) : List ℕ := S.registered.map Node.addr

/-- `registered.erase(it)`, which needs a node of this list. -/
def Sync.erase (S : Sync μ) (it : ℕ) : Option (Sync μ) :=
  if it∈S.addrs then some {S with registered := S.registered.eraseP fun n => n.addr=it}
  else none

/-- Copies of the nodes of a list at other addresses. -/
def copyNodes (nodes : List (Node μ)) (addrs : List ℕ) : List (Node μ) :=
  List.zipWith (fun n addr => {n with addr := addr}) nodes addrs

/-- The living `sync` in a slot. -/
def Registry.sync (r : Registry μ) (k : ℕ) : Option (Sync μ) := live r.syncs k

/-- The address is taken by a node of some living `sync`. -/
def Registry.taken (r : Registry μ) (addr : ℕ) : Bool :=
  anyLive (fun S => decide (addr∈S.addrs)) r.syncs

/-- The connection behind a weak handle is still owned by some vector. -/
def Registry.locks (r : Registry μ) (c : ℕ) : Bool :=
  anyLive (fun S => decide (c∈S.conns)) r.syncs

/-- Store a callable at the end of the list, make its connection and keep it. -/
def Registry.connect (r : Registry μ) (k addr : ℕ) (method : μ) : Option (Registry μ) :=
  match r.sync k with
  | none => none
  | some S =>
    if r.taken addr then none else
      let conn : InternalConnection μ := ⟨addr,k,true,method⟩
      some ⟨r.syncs.set k (some ⟨S.registered++[⟨addr,method,r.heap.length⟩],
        S.conns++[r.heap.length]⟩),r.heap++[conn]⟩

/-- `internal_connection::disconnect`: run the deleter on the list referred to,
once. -/
def Registry.disconnectConn (r : Registry μ) (c : ℕ) : Option (Registry μ) :=
  match r.heap[c]? with
  | none => none
  | some conn =>
    if conn.connected then
      match (r.sync conn.registered).bind fun S => S.erase conn.it with
      | none => none
      | some S => some ⟨r.syncs.set conn.registered (some S),
          r.heap.set c {conn with connected := false}⟩
    else some r

/-- Disconnect through a weak handle, if it can be locked. -/
def Registry.disconnect (r : Registry μ) (c : ℕ) : Option (Registry μ) :=
  if r.locks c then r.disconnectConn c else some r

/-- The body of `~connection`: disconnect what the held handle locks. -/
def Registry.release (r : Registry μ) : Option ℕ → Option (Registry μ)
  | none => some r
  | some c => r.disconnect c

/-- A new `sync`. -/
def Registry.create (r : Registry μ) : Registry μ :=
  {r with syncs := r.syncs++[some Sync.fresh]}

/-- The implicit copy constructor: nodes are copied, connections are shared. -/
def Registry.copyConstruct (r : Registry μ) (b : ℕ) (addrs : List ℕ) : Option (Registry μ) :=
  match r.sync b with
  | none => none
  | some S =>
    if addrs.length=S.registered.length ∧ addrs.Nodup ∧ ∀ addr∈addrs,r.taken addr=false then
      some {r with syncs := r.syncs++[some ⟨copyNodes S.registered addrs,S.conns⟩]}
    else none

/-- The implicit move constructor: nodes and vector change their owner. -/
def Registry.moveConstruct (r : Registry μ) (b : ℕ) : Option (Registry μ) :=
  match r.sync b with
  | none => none
  | some S => some {r with syncs := r.syncs.set b (some Sync.fresh)++[some S]}

/-- The implicit copy assignment. The nodes of the target are overwritten or
freed, so the copies may lie at its old addresses. -/
def Registry.copyAssign (r : Registry μ) (a b : ℕ) (addrs : List ℕ) : Option (Registry μ) :=
  match r.sync a,r.sync b with
  | some A,some B =>
    if a=b then some r
    else if addrs.length=B.registered.length ∧ addrs.Nodup ∧
        ∀ addr∈addrs,addr∈A.addrs ∨ r.taken addr=false then
      some {r with syncs := r.syncs.set a (some ⟨copyNodes B.registered addrs,B.conns⟩)}
    else none
  | _,_ => none

/-- The implicit move assignment; from itself its result is unspecified. -/
def Registry.moveAssign (r : Registry μ) (a b : ℕ) : Option (Registry μ) :=
  match r.sync a,r.sync b with
  | some _,some B =>
    if a=b then none
    else some {r with syncs := (r.syncs.set a (some B)).set b (some Sync.fresh)}
  | _,_ => none

/-- The implicit destructor frees all nodes and drops the shared connections. -/
def Registry.destroy (r : Registry μ) (k : ℕ) : Option (Registry μ) :=
  match r.sync k with
  | none => none
  | some _ => some {r with syncs := r.syncs.set k none}

/-- A handle locks exactly while a living `sync` keeps the connection. -/
theorem locks_iff (r : Registry μ) (c : ℕ) :
    r.locks c=true ↔ ∃ k S,r.sync k=some S ∧ c∈S.conns := by
  rw [Registry.locks,anyLive_iff]
  simp only [decide_eq_true_eq]
  rfl

/-- A free address is the address of no node. -/
theorem not_mem_of_free {r : Registry μ} {addr k : ℕ} {S : Sync μ}
    (h : r.taken addr=false) (hS : r.sync k=some S) : addr∉S.addrs := by
  intro hm
  have ht : r.taken addr=true := (anyLive_iff _ _).mpr ⟨k,S,hS,decide_eq_true hm⟩
  rw [h] at ht
  cases ht

/-- What remains is the same registry with another object in one slot. -/
structure Rewrites (r : Registry μ) (k : ℕ) (o : Option (Sync μ)) (r' : Registry μ) : Prop where
  /-- The slot itself. -/
  here : r'.sync k=o
  /-- All other slots. -/
  elsewhere : ∀ j,j≠k → r'.sync j=r.sync j
  /-- No slot is removed. -/
  grows : r.syncs.length ≤ r'.syncs.length

/-- After one slot was rewritten, what holds of all objects and of the new one
holds of all. -/
theorem Rewrites.forall_sync {r r' : Registry μ} {k : ℕ} {o : Option (Sync μ)}
    {P : Sync μ → Prop} (h : Rewrites r k o r') (hold : ∀ j S,r.sync j=some S → P S)
    (hnew : ∀ S,o=some S → P S) : ∀ j S,r'.sync j=some S → P S := by
  intro j S hS
  by_cases hj : j=k
  · rw [hj,h.here] at hS
    exact hnew S hS
  · rw [h.elsewhere j hj] at hS
    exact hold j S hS

/-- The same after an object changed its slot and left a fresh one behind. -/
theorem forall_sync_of_moved {r r' : Registry μ} {a b : ℕ} {B : Sync μ} {P : Sync μ → Prop}
    (hB : r.sync b=some B) (hto : r'.sync a=some B) (hfrom : r'.sync b=some Sync.fresh)
    (hother : ∀ j,j≠a → j≠b → r'.sync j=r.sync j) (hfresh : P Sync.fresh)
    (hold : ∀ j S,r.sync j=some S → P S) : ∀ j S,r'.sync j=some S → P S := by
  intro j S hS
  by_cases ha : j=a
  · rw [ha,hto,Option.some.injEq] at hS
    exact hS ▸ hold b B hB
  · by_cases hb : j=b
    · rw [hb,hfrom,Option.some.injEq] at hS
      exact hS ▸ hfresh
    · rw [hother j ha hb] at hS
      exact hold j S hS

/-- Writing the slot of a living object. -/
theorem rewrites_set {r : Registry μ} {k : ℕ} {S : Sync μ} (hS : r.sync k=some S)
    (o : Option (Sync μ)) (heap : List (InternalConnection μ)) :
    Rewrites r k o ⟨r.syncs.set k o,heap⟩ where
  here := live_set_self o (lt_of_live hS)
  elsewhere _ hj := live_set_of_ne r.syncs o hj
  grows := by
    change r.syncs.length ≤ (r.syncs.set k o).length
    rw [List.length_set]

/-- Appending a slot. -/
theorem rewrites_append (r : Registry μ) (o : Option (Sync μ)) :
    Rewrites r r.syncs.length o {r with syncs := r.syncs++[o]} where
  here := live_append_self r.syncs o
  elsewhere _ hj := live_append_of_ne r.syncs o hj
  grows := by
    have hlen : (r.syncs++[o]).length=r.syncs.length+1 := List.length_append
    change r.syncs.length ≤ (r.syncs++[o]).length
    omega

/-- Connecting needs a living `sync` and a free address, and extends its list,
its vector and the heap. -/
theorem connect_eq_some {r r' : Registry μ} {k addr : ℕ} {method : μ}
    (h : r.connect k addr method=some r') :
    ∃ S,r.sync k=some S ∧ r.taken addr=false ∧ r'.heap=r.heap++[⟨addr,k,true,method⟩] ∧
      Rewrites r k (some ⟨S.registered++[⟨addr,method,r.heap.length⟩],
        S.conns++[r.heap.length]⟩) r' := by
  unfold Registry.connect at h
  split at h
  · cases h
  · rename_i S hS
    split at h
    · cases h
    · rename_i hfree
      cases h
      exact ⟨S,hS,eq_false_of_ne_true hfree,rfl,rewrites_set hS _ _⟩

/-- Erasing needs a node at the address and removes the first one. -/
theorem erase_eq_some {S S' : Sync μ} {it : ℕ} (h : S.erase it=some S') :
    it∈S.addrs ∧ S'={S with registered := S.registered.eraseP fun n => n.addr=it} := by
  unfold Sync.erase at h
  split at h
  · rename_i hm
    cases h
    exact ⟨hm,rfl⟩
  · cases h

/-- A disconnect finds the flag lowered and does nothing, or erases from the
list referred to and lowers the flag. -/
theorem disconnectConn_eq_some {r r' : Registry μ} {c : ℕ} (h : r.disconnectConn c=some r') :
    ∃ conn,r.heap[c]?=some conn ∧ (conn.connected=false ∧ r'=r ∨
      ∃ S,conn.connected=true ∧ r.sync conn.registered=some S ∧ conn.it∈S.addrs ∧
        r'.heap=r.heap.set c {conn with connected := false} ∧
        Rewrites r conn.registered
          (some {S with registered := S.registered.eraseP fun n => n.addr=conn.it}) r') := by
  unfold Registry.disconnectConn at h
  split at h
  · cases h
  · rename_i conn hc
    refine ⟨conn,hc,?_⟩
    split at h
    · rename_i hflag
      split at h
      · cases h
      · rename_i S' hS'
        cases h
        obtain ⟨S,hS,he⟩ := Option.bind_eq_some_iff.mp hS'
        obtain ⟨hm,rfl⟩ := erase_eq_some he
        exact .inr ⟨S,hflag,hS,hm,rfl,rewrites_set hS _ _⟩
    · rename_i hflag
      cases h
      exact .inl ⟨eq_false_of_ne_true hflag,rfl⟩

/-- Copying gives the new slot copies at other addresses and the same
connections. -/
theorem copyConstruct_eq_some {r r' : Registry μ} {b : ℕ} {addrs : List ℕ}
    (h : r.copyConstruct b addrs=some r') :
    ∃ B,r.sync b=some B ∧ addrs.length=B.registered.length ∧ addrs.Nodup ∧ r'.heap=r.heap ∧
      Rewrites r r.syncs.length (some ⟨copyNodes B.registered addrs,B.conns⟩) r' := by
  unfold Registry.copyConstruct at h
  split at h
  · cases h
  · rename_i B hB
    split at h
    · rename_i hc
      cases h
      exact ⟨B,hB,hc.1,hc.2.1,rfl,rewrites_append r _⟩
    · cases h

/-- Moving gives the new slot the old object and leaves a fresh one behind. -/
theorem moveConstruct_eq_some {r r' : Registry μ} {b : ℕ} (h : r.moveConstruct b=some r') :
    ∃ B,r.sync b=some B ∧ r'.heap=r.heap ∧ r'.sync b=some Sync.fresh ∧
      r'.sync r.syncs.length=some B ∧
      (∀ j,j≠b → j≠r.syncs.length → r'.sync j=r.sync j) ∧
      r.syncs.length ≤ r'.syncs.length := by
  unfold Registry.moveConstruct at h
  split at h
  · cases h
  · rename_i B hB
    cases h
    have hlt := lt_of_live hB
    have hlen : (r.syncs.set b (some Sync.fresh)).length=r.syncs.length := List.length_set
    refine ⟨B,hB,rfl,?_,?_,?_,?_⟩
    · rw [Registry.sync,live_append_of_ne _ _ (by omega),live_set_self _ hlt]
    · rw [Registry.sync,←hlen,live_append_self]
    · intro j hb hl
      rw [Registry.sync,live_append_of_ne _ _ (by omega),live_set_of_ne _ _ hb]
      rfl
    · change r.syncs.length ≤ (r.syncs.set b (some Sync.fresh)++[some B]).length
      rw [List.length_append]
      omega

/-- Copy assignment changes nothing, or overwrites the target by copies. -/
theorem copyAssign_eq_some {r r' : Registry μ} {a b : ℕ} {addrs : List ℕ}
    (h : r.copyAssign a b addrs=some r') :
    r'=r ∨ ∃ A B,a≠b ∧ r.sync a=some A ∧ r.sync b=some B ∧
      addrs.length=B.registered.length ∧ addrs.Nodup ∧ r'.heap=r.heap ∧
      Rewrites r a (some ⟨copyNodes B.registered addrs,B.conns⟩) r' := by
  unfold Registry.copyAssign at h
  split at h
  · rename_i A B hA hB
    split at h
    · cases h
      exact .inl rfl
    · rename_i hne
      split at h
      · rename_i hc
        cases h
        exact .inr ⟨A,B,hne,hA,hB,hc.1,hc.2.1,rfl,rewrites_set hA _ _⟩
      · cases h
  · cases h

/-- Move assignment gives the target the other object and leaves a fresh one
behind. -/
theorem moveAssign_eq_some {r r' : Registry μ} {a b : ℕ} (h : r.moveAssign a b=some r') :
    ∃ A B,a≠b ∧ r.sync a=some A ∧ r.sync b=some B ∧ r'.heap=r.heap ∧
      r'.sync a=some B ∧ r'.sync b=some Sync.fresh ∧
      (∀ j,j≠a → j≠b → r'.sync j=r.sync j) ∧ r.syncs.length ≤ r'.syncs.length := by
  unfold Registry.moveAssign at h
  split at h
  · rename_i A B hA hB
    split at h
    · cases h
    · rename_i hne
      cases h
      have hlt := lt_of_live hB
      have hlen : (r.syncs.set a (some B)).length=r.syncs.length := List.length_set
      refine ⟨A,B,hne,hA,hB,rfl,?_,?_,?_,?_⟩
      · rw [Registry.sync,live_set_of_ne _ _ hne,live_set_self _ (lt_of_live hA)]
      · rw [Registry.sync,live_set_self _ (by omega)]
      · intro j ha hb
        rw [Registry.sync,live_set_of_ne _ _ hb,live_set_of_ne _ _ ha]
        rfl
      · change r.syncs.length ≤ ((r.syncs.set a (some B)).set b (some Sync.fresh)).length
        rw [List.length_set]
        omega
  · cases h

/-- Destroying vacates the slot. -/
theorem destroy_eq_some {r r' : Registry μ} {k : ℕ} (h : r.destroy k=some r') :
    r'.heap=r.heap ∧ Rewrites r k none r' := by
  unfold Registry.destroy at h
  split at h
  · cases h
  · rename_i S hS
    cases h
    exact ⟨rfl,rewrites_set hS _ _⟩

end FastEventSystem.SyncRegistry
