import FastEventSystem.SyncRegistry
import FastEventSystem.GuardedRuns

/-!
# Connection objects and the whole machine of subscriptions

A `connection` object holds one weak handle and disconnects it when it is
destroyed. The machine below performs every operation the public interface
offers: creating, copying, moving and destroying `sync` objects, the overloads
of `connect`, disconnecting through a handle, and the special members of
`connection`. A handle is the number of its connection, so all copies of a
handle are one number, and the empty handle is `none`.
-/

namespace FastEventSystem.ConnectionObjects

open SlotTable SyncRegistry

/-- Everything subscriptions are made of. -/
structure World (μ : Type*) where
  /-- The `sync` objects and the connections. -/
  registry : Registry μ
  /-- One slot for each `connection` object, with the handle it holds. -/
  objs : List (Option (Option ℕ))
  /-- Handles ever stored in a `connection` object; a history. -/
  stored : List ℕ
  deriving DecidableEq,Repr

variable {μ η σ φ δ : Type*}

/-- Before the first operation. -/
def World.start : World μ := ⟨⟨[],[]⟩,[],[]⟩

/-- Change the registry only. -/
def World.withRegistry (w : World μ) (r : Option (Registry μ)) : Option (World μ) :=
  r.map fun registry => {w with registry := registry}

/-- `connect` with a callable. -/
def World.connect (w : World μ) (k addr : ℕ) (method : μ) : Option (World μ) :=
  w.withRegistry (w.registry.connect k addr method)

/-- `_connect`, behind the overload for an object and its member function. It
repeats the body of `connect` with the bound callable. -/
def World.connectBind (w : World (Method η σ φ δ)) (k addr : ℕ) (obj ptrFunc : η) :
    Option (World (Method η σ φ δ)) :=
  match w.registry.sync k with
  | none => none
  | some S =>
    if w.registry.taken addr then none else
      let bound : Method η σ φ δ := .bind obj ptrFunc
      let c := w.registry.heap.length
      some {w with registry :=
        ⟨w.registry.syncs.set k (some ⟨S.registered++[⟨addr,bound,c⟩],S.conns++[c]⟩),
          w.registry.heap++[⟨addr,k,true,bound⟩]⟩}

/-- `connect` with another `sync`. -/
def World.connectSync (w : World (Method η σ φ δ)) (k addr : ℕ) (callback : σ) :
    Option (World (Method η σ φ δ)) := w.connect k addr (.sync callback)

/-- `connect` with an `async_fast`. -/
def World.connectFast (w : World (Method η σ φ δ)) (k addr : ℕ) (queue : φ) :
    Option (World (Method η σ φ δ)) := w.connect k addr (.fast queue)

/-- `connect` with a priority, a delay and an `async_delay`. -/
def World.connectDelay (w : World (Method η σ φ δ)) (k addr : ℕ) (priority delay : ℤ)
    (queue : δ) : Option (World (Method η σ φ δ)) :=
  w.connect k addr (.delay priority delay queue)

/-- Handles a caller may have: the empty one and those returned by connect. -/
def World.returned (w : World μ) (handle : Option ℕ) : Bool :=
  handle.all fun c => decide (c < w.registry.heap.length)

/-- Construct a `connection`, from the empty handle in the default case. -/
def World.construct (w : World μ) (handle : Option ℕ) : Option (World μ) :=
  if w.returned handle then
    some {w with objs := w.objs++[some handle],stored := handle.toList++w.stored}
  else none

/-- Assign a handle; the handle held before is overwritten. -/
def World.assign (w : World μ) (o : ℕ) (handle : Option ℕ) : Option (World μ) :=
  match live w.objs o with
  | none => none
  | some _ =>
    if w.returned handle then
      some {w with objs := w.objs.set o (some handle),stored := handle.toList++w.stored}
    else none

/-- Move-construct a `connection`, which empties the other one. -/
def World.moveConstruct (w : World μ) (p : ℕ) : Option (World μ) :=
  match live w.objs p with
  | none => none
  | some handle => some {w with objs := w.objs.set p (some none)++[some handle]}

/-- Move-assign a `connection`; the handle held before is overwritten. A move
from itself gives the handle back. -/
def World.moveAssign (w : World μ) (o p : ℕ) : Option (World μ) :=
  match live w.objs o,live w.objs p with
  | some _,some handle =>
    if o=p then some w
    else some {w with objs := (w.objs.set o (some handle)).set p (some none)}
  | _,_ => none

/-- Destroy a `connection`. -/
def World.destroy (w : World μ) (o : ℕ) : Option (World μ) :=
  match live w.objs o with
  | none => none
  | some handle =>
    match w.registry.release handle with
    | none => none
    | some registry => some {w with registry := registry,objs := w.objs.set o none}

/-- The operations of the public interface. -/
inductive Act (η σ φ δ : Type*)
  /-- Construct a `sync`. -/
  | create
  /-- Copy-construct a `sync`, with the addresses of the copied nodes. -/
  | copySync (b : ℕ) (addrs : List ℕ)
  /-- Move-construct a `sync`. -/
  | moveSync (b : ℕ)
  /-- Copy-assign a `sync`. -/
  | copyAssignSync (a b : ℕ) (addrs : List ℕ)
  /-- Move-assign a `sync`. -/
  | moveAssignSync (a b : ℕ)
  /-- Destroy a `sync`. -/
  | destroySync (k : ℕ)
  /-- Connect a callable, with the address of the new node. -/
  | connect (k addr : ℕ) (f : η)
  /-- Connect a member function of an object. -/
  | connectBind (k addr : ℕ) (obj ptrFunc : η)
  /-- Connect another `sync`. -/
  | connectSync (k addr : ℕ) (callback : σ)
  /-- Connect an `async_fast`. -/
  | connectFast (k addr : ℕ) (queue : φ)
  /-- Connect an `async_delay`. -/
  | connectDelay (k addr : ℕ) (priority delay : ℤ) (queue : δ)
  /-- Lock a handle and disconnect. -/
  | disconnect (c : ℕ)
  /-- Construct a `connection`. -/
  | construct (handle : Option ℕ)
  /-- Assign a handle to a `connection`. -/
  | assign (o : ℕ) (handle : Option ℕ)
  /-- Move-construct a `connection`. -/
  | moveConstruct (p : ℕ)
  /-- Move-assign a `connection`. -/
  | moveAssign (o p : ℕ)
  /-- Destroy a `connection`. -/
  | destroy (o : ℕ)
  deriving DecidableEq,Repr

/-- The `sync` and the callable of a connect call. -/
def Act.connects : Act η σ φ δ → Option (ℕ×Method η σ φ δ)
  | .connect k _ f => some (k,.functor f)
  | .connectBind k _ obj ptrFunc => some (k,.bind obj ptrFunc)
  | .connectSync k _ callback => some (k,.sync callback)
  | .connectFast k _ queue => some (k,.fast queue)
  | .connectDelay k _ priority delay queue => some (k,.delay priority delay queue)
  | _ => none

/-- Operations which may disconnect. -/
def Act.Disconnects : Act η σ φ δ → Prop
  | .disconnect _ | .destroy _ => True
  | _ => False

/-- One operation. -/
def next (w : World (Method η σ φ δ)) : Act η σ φ δ → Option (World (Method η σ φ δ))
  | .create => w.withRegistry (some w.registry.create)
  | .copySync b addrs => w.withRegistry (w.registry.copyConstruct b addrs)
  | .moveSync b => w.withRegistry (w.registry.moveConstruct b)
  | .copyAssignSync a b addrs => w.withRegistry (w.registry.copyAssign a b addrs)
  | .moveAssignSync a b => w.withRegistry (w.registry.moveAssign a b)
  | .destroySync k => w.withRegistry (w.registry.destroy k)
  | .connect k addr f => w.connect k addr (.functor f)
  | .connectBind k addr obj ptrFunc => w.connectBind k addr obj ptrFunc
  | .connectSync k addr callback => w.connectSync k addr callback
  | .connectFast k addr queue => w.connectFast k addr queue
  | .connectDelay k addr priority delay queue => w.connectDelay k addr priority delay queue
  | .disconnect c => w.withRegistry (w.registry.disconnect c)
  | .construct handle => w.construct handle
  | .assign o handle => w.assign o handle
  | .moveConstruct p => w.moveConstruct p
  | .moveAssign o p => w.moveAssign o p
  | .destroy o => w.destroy o

/-- The two implementations of connecting agree. -/
theorem connectBind_eq_connect (w : World (Method η σ φ δ)) (k addr : ℕ) (obj ptrFunc : η) :
    w.connectBind k addr obj ptrFunc=w.connect k addr (.bind obj ptrFunc) := by
  unfold World.connectBind World.connect World.withRegistry Registry.connect
  cases w.registry.sync k with
  | none => rfl
  | some S => cases w.registry.taken addr <;> rfl

/-- What one accepted operation does to the objects and to the registry. -/
inductive Effect (w : World (Method η σ φ δ)) :
    Act η σ φ δ → World (Method η σ φ δ) → Prop
  | create : Effect w .create {w with registry := w.registry.create}
  | copySync (b : ℕ) (addrs : List ℕ) (r : Registry (Method η σ φ δ)) :
      w.registry.copyConstruct b addrs=some r →
        Effect w (.copySync b addrs) {w with registry := r}
  | moveSync (b : ℕ) (r : Registry (Method η σ φ δ)) :
      w.registry.moveConstruct b=some r → Effect w (.moveSync b) {w with registry := r}
  | copyAssignSync (a b : ℕ) (addrs : List ℕ) (r : Registry (Method η σ φ δ)) :
      w.registry.copyAssign a b addrs=some r →
        Effect w (.copyAssignSync a b addrs) {w with registry := r}
  | moveAssignSync (a b : ℕ) (r : Registry (Method η σ φ δ)) :
      w.registry.moveAssign a b=some r → Effect w (.moveAssignSync a b) {w with registry := r}
  | destroySync (k : ℕ) (r : Registry (Method η σ φ δ)) :
      w.registry.destroy k=some r → Effect w (.destroySync k) {w with registry := r}
  | connect (a : Act η σ φ δ) (k addr : ℕ) (method : Method η σ φ δ)
      (r : Registry (Method η σ φ δ)) : a.connects=some (k,method) →
      w.registry.connect k addr method=some r → Effect w a {w with registry := r}
  | disconnect (c : ℕ) (r : Registry (Method η σ φ δ)) :
      w.registry.disconnect c=some r → Effect w (.disconnect c) {w with registry := r}
  | construct (handle : Option ℕ) : w.returned handle=true →
      Effect w (.construct handle)
        {w with objs := w.objs++[some handle],stored := handle.toList++w.stored}
  | assign (o : ℕ) (held handle : Option ℕ) : live w.objs o=some held →
      w.returned handle=true → Effect w (.assign o handle)
        {w with objs := w.objs.set o (some handle),stored := handle.toList++w.stored}
  | moveConstruct (p : ℕ) (handle : Option ℕ) : live w.objs p=some handle →
      Effect w (.moveConstruct p) {w with objs := w.objs.set p (some none)++[some handle]}
  | moveSelf (o : ℕ) : Effect w (.moveAssign o o) w
  | moveAssign (o p : ℕ) (held handle : Option ℕ) : o≠p → live w.objs o=some held →
      live w.objs p=some handle → Effect w (.moveAssign o p)
        {w with objs := (w.objs.set o (some handle)).set p (some none)}
  | destroy (o : ℕ) (handle : Option ℕ) (r : Registry (Method η σ φ δ)) :
      live w.objs o=some handle → w.registry.release handle=some r →
        Effect w (.destroy o) {w with registry := r,objs := w.objs.set o none}

/-- Changing the registry needs a result. -/
theorem withRegistry_eq_some {w w' : World μ} {r : Option (Registry μ)}
    (h : w.withRegistry r=some w') : ∃ r',r=some r' ∧ {w with registry := r'}=w' :=
  Option.map_eq_some_iff.mp h

/-- The operations have no other effects. -/
theorem next_effect {w w' : World (Method η σ φ δ)} {a : Act η σ φ δ}
    (h : next w a=some w') : Effect w a w' := by
  cases a with
  | create =>
    cases h
    exact .create
  | copySync b addrs =>
    obtain ⟨r,hr,rfl⟩ := withRegistry_eq_some h
    exact .copySync b addrs r hr
  | moveSync b =>
    obtain ⟨r,hr,rfl⟩ := withRegistry_eq_some h
    exact .moveSync b r hr
  | copyAssignSync a b addrs =>
    obtain ⟨r,hr,rfl⟩ := withRegistry_eq_some h
    exact .copyAssignSync a b addrs r hr
  | moveAssignSync a b =>
    obtain ⟨r,hr,rfl⟩ := withRegistry_eq_some h
    exact .moveAssignSync a b r hr
  | destroySync k =>
    obtain ⟨r,hr,rfl⟩ := withRegistry_eq_some h
    exact .destroySync k r hr
  | connect k addr f =>
    obtain ⟨r,hr,rfl⟩ := withRegistry_eq_some h
    exact .connect _ k addr _ r rfl hr
  | connectBind k addr obj ptrFunc =>
    simp only [next,connectBind_eq_connect] at h
    obtain ⟨r,hr,rfl⟩ := withRegistry_eq_some h
    exact .connect _ k addr _ r rfl hr
  | connectSync k addr callback =>
    obtain ⟨r,hr,rfl⟩ := withRegistry_eq_some h
    exact .connect _ k addr _ r rfl hr
  | connectFast k addr queue =>
    obtain ⟨r,hr,rfl⟩ := withRegistry_eq_some h
    exact .connect _ k addr _ r rfl hr
  | connectDelay k addr priority delay queue =>
    obtain ⟨r,hr,rfl⟩ := withRegistry_eq_some h
    exact .connect _ k addr _ r rfl hr
  | disconnect c =>
    obtain ⟨r,hr,rfl⟩ := withRegistry_eq_some h
    exact .disconnect c r hr
  | construct handle =>
    simp only [next,World.construct] at h
    split at h <;> cases h
    rename_i hret
    exact .construct handle hret
  | assign o handle =>
    simp only [next,World.assign] at h
    split at h
    · cases h
    · rename_i held ho
      split at h <;> cases h
      rename_i hret
      exact .assign o held handle ho hret
  | moveConstruct p =>
    simp only [next,World.moveConstruct] at h
    split at h <;> cases h
    rename_i handle hp
    exact .moveConstruct p handle hp
  | moveAssign o p =>
    simp only [next,World.moveAssign] at h
    split at h
    · rename_i held handle ho hp
      split at h <;> cases h
      · rename_i heq
        cases heq
        exact .moveSelf o
      · rename_i hne
        exact .moveAssign o p held handle hne ho hp
    · cases h
  | destroy o =>
    simp only [next,World.destroy] at h
    split at h
    · cases h
    · rename_i handle ho
      split at h <;> cases h
      rename_i r hr
      exact .destroy o handle r ho hr

/-- Disconnecting through a handle changes at most one flag. -/
theorem disconnect_heap {r r' : Registry μ} {c : ℕ} (h : r.disconnect c=some r') :
    r'.heap=r.heap ∨ ∃ conn,r.heap[c]?=some conn ∧
      r'.heap=r.heap.set c {conn with connected := false} := by
  unfold Registry.disconnect at h
  split at h
  · obtain ⟨conn,hc,⟨-,rfl⟩|⟨T,-,-,-,hheap,-⟩⟩ := disconnectConn_eq_some h
    · exact .inl rfl
    · exact .inr ⟨conn,hc,hheap⟩
  · cases h
    exact .inl rfl

/-- What one accepted operation does to the connections: a connect call makes
one, a disconnect lowers at most one flag, and nothing else touches them. -/
theorem heap_effect {w w' : World (Method η σ φ δ)} {a : Act η σ φ δ} (h : next w a=some w') :
    a.connects=none ∧ w'.registry.heap=w.registry.heap ∨
      (∃ k addr method,a.connects=some (k,method) ∧
        w'.registry.heap=w.registry.heap++[⟨addr,k,true,method⟩]) ∨
      ∃ c conn,a.connects=none ∧ a.Disconnects ∧ w.registry.heap[c]?=some conn ∧
        w'.registry.heap=w.registry.heap.set c {conn with connected := false} := by
  cases next_effect h with
  | create | construct | assign | moveConstruct | moveSelf | moveAssign =>
    exact .inl ⟨rfl,rfl⟩
  | copySync b addrs r hr =>
    obtain ⟨B,-,-,-,hheap,-⟩ := copyConstruct_eq_some hr
    exact .inl ⟨rfl,hheap⟩
  | moveSync b r hr =>
    obtain ⟨B,-,hheap,-⟩ := moveConstruct_eq_some hr
    exact .inl ⟨rfl,hheap⟩
  | copyAssignSync a b addrs r hr =>
    rcases copyAssign_eq_some hr with rfl|⟨A,B,-,-,-,-,-,hheap,-⟩
    · exact .inl ⟨rfl,rfl⟩
    · exact .inl ⟨rfl,hheap⟩
  | moveAssignSync a b r hr =>
    obtain ⟨A,B,-,-,-,hheap,-⟩ := moveAssign_eq_some hr
    exact .inl ⟨rfl,hheap⟩
  | destroySync k r hr =>
    obtain ⟨hheap,-⟩ := destroy_eq_some hr
    exact .inl ⟨rfl,hheap⟩
  | connect _ k addr method r ha hr =>
    obtain ⟨T,-,-,hheap,-⟩ := connect_eq_some hr
    exact .inr (.inl ⟨k,addr,method,ha,hheap⟩)
  | disconnect c r hr =>
    rcases disconnect_heap hr with hheap|⟨conn,hc,hheap⟩
    · exact .inl ⟨rfl,hheap⟩
    · exact .inr (.inr ⟨c,conn,rfl,trivial,hc,hheap⟩)
  | destroy o handle r ho hr =>
    cases handle with
    | none =>
      cases hr
      exact .inl ⟨rfl,rfl⟩
    | some c =>
      rcases disconnect_heap hr with hheap|⟨conn,hc,hheap⟩
      · exact .inl ⟨rfl,hheap⟩
      · exact .inr (.inr ⟨c,conn,rfl,trivial,hc,hheap⟩)

end FastEventSystem.ConnectionObjects
