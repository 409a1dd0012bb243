import FastEventSystem.SyncLifetime
import FastEventSystem.RegistryOrder
import FastEventSystem.CursorWalk

/-!
# The dispatch loop of a `sync` while its handlers change the list

`operator()` walks the list of handlers with an iterator and calls each one.
A running handler may perform any operation of the public interface, also on
the list being walked, and may call `operator()` again, which starts a loop of
its own on top. So may the destructors of the callables which its operations
destroy; what they do counts as done by the handler, which cannot return before
they have. Every loop on the call stack holds the iterator of the node whose
handler it is calling. A handler makes finitely many operations; their number is
chosen when it is called. Advancing an iterator whose node has been erased, and
stepping back from the end of an empty list, are faults, besides those of the
operations themselves. The arguments of the handlers are left out. The turns of a
loop, the lists it met and what it chose, are a history no step reads.
-/

namespace FastEventSystem.DispatchLoop

open SlotTable SyncRegistry GuardedRuns CursorWalk
open ConnectionObjects (World)
open ErasedCallables (Pending Scene Regular handle erasedBy erased settleRegistry)
open RegistryOrder (eraseP_eq_filter)
open SyncLifetime (copyNodes_addrs ne_length_of_sync)

/-- What the standard library leaves undefined in the loop. -/
inductive Fault where
  /-- `++it` with an erased node. -/
  | erased
  /-- `--_registered.end()` of an empty list. -/
  | emptyEnd
  deriving DecidableEq,Repr

/-- A loop of `operator()` whose handler runs. -/
structure Frame where
  /-- The iterator `it`. -/
  it : ℕ
  /-- Number of the connection whose node `it` designates; a history. -/
  origin : ℕ
  /-- Whether the last-iteration test had the arguments forwarded. -/
  forwards : Bool
  /-- Operations the running handler still makes. -/
  work : ℕ
  /-- Operations which were in their middle when the handler was called. -/
  base : ℕ
  /-- The turns so far, newest first; a history. -/
  turns : List (Turn ℕ)
  deriving DecidableEq

/-- A loop which came to its end. -/
structure Completed where
  /-- Loops below it on the call stack. -/
  depth : ℕ
  /-- Its turns, newest first. -/
  turns : List (Turn ℕ)
  deriving DecidableEq

/-- The subscriptions and the loops on one `sync`. -/
structure State (μ : Type*) where
  /-- All `sync` objects, connections and connection objects, and the operations
  in their middle. -/
  scene : Scene μ
  /-- The loops in progress, innermost first. -/
  stack : List Frame
  /-- History of completed loops. -/
  completed : List Completed
  /-- The first fault of a loop; nothing is said after it. -/
  fault : Option Fault

variable {μ η σ φ δ : Type*}

/-- Nothing exists yet. -/
def State.start : State μ := ⟨.start,[],[],none⟩

/-- The numbers of the connections in the list, in list order. -/
def origins (S : Sync μ) : List ℕ := S.registered.map Node.origin

/-- The node the iterator was taken from is still in the list. -/
def holds (S : Sync μ) (f : Frame) : Bool :=
  S.registered.any fun n => decide (n.addr=f.it ∧ n.origin=f.origin)

/-- One step. -/
inductive Act (η σ φ δ : Type*) where
  /-- The running handler, or the code outside all loops, or a destructor called by
  one of them, performs an operation, begins one or ends it. -/
  | edit (act : ErasedCallables.Act η σ φ δ)
  /-- It calls `operator()`; the first handler will make that many operations. -/
  | operatorCall (work : ℕ)
  /-- The running handler returns; the next one will make that many operations. -/
  | returns (work : ℕ)
  /-- The running handler throws, and the exception leaves the loop. -/
  | throws

/-- The running handler makes one of its operations. -/
def spend : List Frame → Option (List Frame)
  | [] => some []
  | f::rest => if f.work=0 then none else some ({f with work := f.work-1}::rest)

/-- Operations in their middle below the code which runs now. -/
def base : List Frame → ℕ
  | [] => 0
  | f::_ => f.base

/-- Beginning an operation counts, its end must be due. -/
def State.pay (s : State μ) : ErasedCallables.Act η σ φ δ → Option (List Frame)
  | .whole _ | .begins _ => spend s.stack
  | .ends => if base s.stack < s.scene.pending.length then some s.stack else none

/-- The head of the loop with `it` at a node or at the end: test `it != ite`,
compute `itee`, and call the handler. -/
def State.iterate (s : State μ) (S : Sync μ) (rest : List Frame) (after : Option ℕ)
    (turns : List (Turn ℕ)) (work : ℕ) : Option (Node μ) → State μ
  | none => {s with
      stack := rest
      completed := ⟨rest.length,⟨after,origins S,none⟩::turns⟩::s.completed}
  | some n =>
    match S.registered.getLast? with
    | none => {s with fault := some .emptyEnd}
    | some itee => {s with stack := ⟨n.addr,n.origin,decide (n.addr=itee.addr),work,
        s.scene.pending.length,⟨after,origins S,some n.origin⟩::turns⟩::rest}

/-- The list of the slot is in the middle of an assignment. -/
def assigning (k : ℕ) (s : Scene μ) : Bool := s.pending.any (Pending.assigns k)

/-- Perform one step on the `sync` in a slot. -/
def next (k : ℕ) (s : State (Method η σ φ δ)) (a : Act η σ φ δ) :
    Option (State (Method η σ φ δ)) :=
  if s.fault.isSome=true ∨ s.scene.fault.isSome=true then none
  else
    match a with
    | .edit act =>
      (s.pay act).bind fun stack => (ErasedCallables.next s.scene act).map fun scene =>
        {s with scene := scene,stack := stack}
    | .operatorCall work =>
      (spend s.stack).bind fun stack => (s.scene.world.registry.sync k).map fun S =>
        if assigning k s.scene=true then {s with scene := {s.scene with fault := some .midway}}
        else s.iterate S stack none [] work S.registered.head?
    | .returns work =>
      match s.stack with
      | [] => none
      | f::rest =>
        if f.work=0 ∧ s.scene.pending.length=f.base then
          (s.scene.world.registry.sync k).map fun S =>
            if holds S f=true then
              s.iterate S rest (some f.origin) f.turns work
                (following (fun n => decide (n.addr=f.it)) S.registered)
            else {s with fault := some .erased}
        else none
    | .throws =>
      match s.stack with
      | [] => none
      | f::rest => if s.scene.pending.length=f.base then some {s with stack := rest} else none

/-- Slot and address of the node a step erases. -/
def erases (s : Scene μ) (act : ErasedCallables.Act η σ φ δ) : Option (ℕ×ℕ) :=
  act.operation.bind (erased s.world)

/-- The `sync` and the callable of a step which connects. -/
def connects (act : ErasedCallables.Act η σ φ δ) : Option (ℕ×Method η σ φ δ) :=
  act.operation.bind ConnectionObjects.Act.connects

/-- The operation neither assigns another `sync` to the one in the slot nor moves
it away nor destroys it. -/
def Stays (k : ℕ) : ConnectionObjects.Act η σ φ δ → Prop
  | .moveSync b => b≠k
  | .copyAssignSync a b _ => a≠k ∨ a=b
  | .moveAssignSync a b => a≠k ∧ b≠k
  | .destroySync j => j≠k
  | _ => True

/-- Neither does the step, nor is it the end of such an assignment. -/
def Remains (k : ℕ) (s : Scene μ) : ErasedCallables.Act η σ φ δ → Prop
  | .whole a | .begins a => Stays k a
  | .ends => ∀ p∈s.pending.head?,p.assigns k=false

/-- While a loop runs, the `sync` stays where it is and nobody disconnects a
handler whose call is on the call stack. -/
def Considerate (k : ℕ) (s : State (Method η σ φ δ)) : Act η σ φ δ → Prop
  | .edit act => (s.stack≠[] → Remains k s.scene act) ∧ ∀ f∈s.stack,erases s.scene act≠some (k,f.it)
  | _ => True

/-- Moreover no destructor repeats the disconnect it runs in, every other disconnect
finds its node, and no list is used in the middle of its assignment. -/
def Spared (k : ℕ) (s : State (Method η σ φ δ)) : Act η σ φ δ → Prop
  | .edit act => Considerate k s (.edit act) ∧ ∀ a∈act.operation,Regular s.scene a
  | .operatorCall _ => assigning k s.scene=false
  | _ => True

/-- Moreover no handler throws. -/
def Disciplined (k : ℕ) (s : State (Method η σ φ δ)) : Act η σ φ δ → Prop
  | .throws => False
  | a => Spared k s a

instance (k : ℕ) : (a : ConnectionObjects.Act η σ φ δ) → Decidable (Stays k a)
  | .moveSync _ | .destroySync _ => inferInstanceAs (Decidable (_≠_))
  | .copyAssignSync .. => inferInstanceAs (Decidable (_ ∨ _))
  | .moveAssignSync .. => inferInstanceAs (Decidable (_ ∧ _))
  | .create | .copySync .. | .connect .. | .connectBind .. | .connectSync .. | .connectFast ..
  | .connectDelay .. | .disconnect _ | .construct _ | .assign .. | .moveConstruct _
  | .moveAssign .. | .destroy _ => inferInstanceAs (Decidable True)

instance (k : ℕ) (s : Scene μ) : (act : ErasedCallables.Act η σ φ δ) → Decidable (Remains k s act)
  | .whole a | .begins a => inferInstanceAs (Decidable (Stays k a))
  | .ends => inferInstanceAs (Decidable (∀ p∈s.pending.head?,_))

instance (k : ℕ) (s : State (Method η σ φ δ)) : (a : Act η σ φ δ) → Decidable (Considerate k s a)
  | .edit act => inferInstanceAs (Decidable ((s.stack≠[] → Remains k s.scene act) ∧
      ∀ f∈s.stack,erases s.scene act≠some (k,f.it)))
  | .operatorCall _ | .returns _ | .throws => inferInstanceAs (Decidable True)

instance (k : ℕ) (s : State (Method η σ φ δ)) : (a : Act η σ φ δ) → Decidable (Spared k s a)
  | .edit act => inferInstanceAs (Decidable (Considerate k s (.edit act) ∧
      ∀ a∈act.operation,Regular s.scene a))
  | .operatorCall _ => inferInstanceAs (Decidable (_=_))
  | .returns _ | .throws => inferInstanceAs (Decidable True)

instance (k : ℕ) (s : State (Method η σ φ δ)) : (a : Act η σ φ δ) →
    Decidable (Disciplined k s a)
  | .edit act => inferInstanceAs (Decidable (Spared k s (.edit act)))
  | .operatorCall work => inferInstanceAs (Decidable (Spared k s (.operatorCall work)))
  | .returns work => inferInstanceAs (Decidable (Spared k s (.returns work)))
  | .throws => inferInstanceAs (Decidable False)

section Numbers

open ConnectionObjects (next_effect)

/-- A list of handlers in connection order, each in a node of its own. -/
structure Numbered (bound : ℕ) (S : Sync μ) : Prop where
  /-- Numbers of connections increase. -/
  sorted : (origins S).Pairwise (· < ·)
  /-- They are below the bound. -/
  below : ∀ c∈origins S,c < bound
  /-- No two nodes share an address. -/
  addrs : S.addrs.Nodup

/-- The lists of all living `sync` objects are numbered. -/
def AllNumbered (r : Registry μ) : Prop :=
  ∀ j S,r.sync j=some S → Numbered r.heap.length S

/-- An empty list is numbered. -/
theorem Numbered.fresh (bound : ℕ) : Numbered bound (Sync.fresh : Sync μ) :=
  ⟨.nil,nofun,List.nodup_nil⟩

/-- More connections may exist. -/
theorem Numbered.mono {bound bound' : ℕ} {S : Sync μ} (h : Numbered bound S)
    (hle : bound ≤ bound') : Numbered bound' S :=
  ⟨h.sorted,fun c hc => Nat.lt_of_lt_of_le (h.below c hc) hle,h.addrs⟩

/-- Copied nodes stem from the same connections. -/
theorem copyNodes_origins {nodes : List (Node μ)} {addrs : List ℕ}
    (h : addrs.length=nodes.length) :
    (copyNodes nodes addrs).map Node.origin=nodes.map Node.origin := by
  rw [copyNodes,List.map_zipWith]
  induction nodes generalizing addrs with
  | nil => rfl
  | cons n nodes ih =>
    cases addrs with
    | nil => cases h
    | cons addr addrs =>
      rw [List.zipWith_cons_cons,ih (Nat.succ.inj h),List.map_cons]

/-- A copy is numbered like its original. -/
theorem Numbered.copy {bound : ℕ} {S : Sync μ} {addrs : List ℕ} (h : Numbered bound S)
    (hlen : addrs.length=S.registered.length) (hnodup : addrs.Nodup) :
    Numbered bound ⟨copyNodes S.registered addrs,S.conns⟩ := by
  have horigins : origins (⟨copyNodes S.registered addrs,S.conns⟩ : Sync μ)=origins S :=
    copyNodes_origins hlen
  refine ⟨horigins ▸ h.sorted,horigins ▸ h.below,?_⟩
  rw [Sync.addrs,copyNodes_addrs hlen]
  exact hnodup

/-- A new connection gets the next number. -/
theorem Numbered.append {bound addr : ℕ} {S : Sync μ} {method : μ} (conns : List ℕ)
    (h : Numbered bound S) (hfree : addr∉S.addrs) :
    Numbered (bound+1) ⟨S.registered++[⟨addr,method,bound⟩],conns⟩ := by
  have horigins : origins (⟨S.registered++[⟨addr,method,bound⟩],conns⟩ : Sync μ)=
      origins S++[bound] := List.map_append
  refine ⟨?_,?_,?_⟩
  · rw [horigins,List.pairwise_append]
    refine ⟨h.sorted,List.pairwise_singleton _ _,fun c hc d hd => ?_⟩
    rw [List.mem_singleton.mp hd]
    exact h.below c hc
  · intro c hc
    rw [horigins] at hc
    rcases List.mem_append.mp hc with hc|hc
    · have hlt := h.below c hc
      omega
    · rw [List.mem_singleton.mp hc]
      exact Nat.lt_succ_self _
  · rw [Sync.addrs,List.map_append]
    exact List.Nodup.append h.addrs (List.nodup_singleton _) (List.disjoint_singleton.mpr hfree)

/-- Fewer nodes are numbered. -/
theorem Numbered.sublist {bound : ℕ} {S S' : Sync μ} (h : Numbered bound S)
    (hsub : S'.registered.Sublist S.registered) : Numbered bound S' :=
  ⟨h.sorted.sublist (hsub.map _),fun c hc => h.below c ((hsub.map _).subset hc),
    h.addrs.sublist (hsub.map _)⟩

/-- What a disconnect through a handle does to the lists. -/
theorem disconnect_slot {r r' : Registry μ} {c : ℕ} (h : r.disconnect c=some r') :
    erasedBy r c=none ∧ r'=r ∨ ∃ j it S,erasedBy r c=some (j,it) ∧ r.sync j=some S ∧
      r'.heap.length=r.heap.length ∧
      Rewrites r j (some {S with registered := S.registered.eraseP fun n => n.addr=it}) r' := by
  unfold Registry.disconnect at h
  split at h
  · rename_i hlocks
    obtain ⟨conn,hc,⟨hflag,rfl⟩|⟨S,hflag,hS,-,hheap,hrw⟩⟩ := disconnectConn_eq_some h
    · refine .inl ⟨?_,rfl⟩
      simp only [erasedBy,hc,hflag,Bool.false_eq_true,and_false,if_false]
    · refine .inr ⟨conn.registered,conn.it,S,?_,hS,?_,hrw⟩
      · simp only [erasedBy,hc,hflag,hlocks,and_self,if_true]
      · rw [hheap,List.length_set]
  · rename_i hlocks
    cases h
    refine .inl ⟨?_,rfl⟩
    unfold erasedBy
    split
    · rfl
    · exact if_neg fun hboth => hlocks hboth.1

/-- Rewriting one slot keeps all lists numbered. -/
theorem AllNumbered.rewrites {r r' : Registry μ} {k : ℕ} {o : Option (Sync μ)}
    (h : AllNumbered r) (hrw : Rewrites r k o r') (hlen : r.heap.length ≤ r'.heap.length)
    (hnew : ∀ S,o=some S → Numbered r'.heap.length S) : AllNumbered r' :=
  hrw.forall_sync (fun j S hS => (h j S hS).mono hlen) hnew

/-- A list moved from one slot to another leaves an empty one. -/
theorem AllNumbered.moved {r r' : Registry μ} {a b : ℕ} {B : Sync μ} (h : AllNumbered r)
    (hheap : r'.heap=r.heap) (hB : r.sync b=some B) (hto : r'.sync a=some B)
    (hfrom : r'.sync b=some Sync.fresh) (hother : ∀ j,j≠a → j≠b → r'.sync j=r.sync j) :
    AllNumbered r' := by
  rw [AllNumbered,hheap]
  exact forall_sync_of_moved hB hto hfrom hother (Numbered.fresh _) h

/-- A disconnect keeps all lists numbered. -/
theorem AllNumbered.disconnect {r r' : Registry μ} {c : ℕ} (h : AllNumbered r)
    (hd : r.disconnect c=some r') : AllNumbered r' := by
  rcases disconnect_slot hd with ⟨-,rfl⟩|⟨j,it,S,-,hS,hlen,hrw⟩
  · exact h
  · refine h.rewrites hrw (Nat.le_of_eq hlen.symm) fun T hT => ?_
    cases hT
    rw [hlen]
    exact (h j S hS).sublist List.eraseP_sublist

/-- Every operation keeps all lists numbered. -/
theorem numbered_step {w w' : World (Method η σ φ δ)} {a : ConnectionObjects.Act η σ φ δ}
    (hi : AllNumbered w.registry) (h : ConnectionObjects.next w a=some w') :
    AllNumbered w'.registry := by
  cases next_effect h with
  | create =>
    refine hi.rewrites (rewrites_append _ _) (Nat.le_refl _) fun S hS => ?_
    cases hS
    exact Numbered.fresh _
  | construct | assign | moveConstruct | moveSelf | moveAssign => exact hi
  | copySync b addrs r hr =>
    obtain ⟨B,hB,hlen,hnodup,hheap,hrw⟩ := copyConstruct_eq_some hr
    refine hi.rewrites hrw (Nat.le_of_eq (congrArg List.length hheap.symm)) fun S hS => ?_
    cases hS
    exact hheap ▸ (hi b B hB).copy hlen hnodup
  | moveSync b r hr =>
    obtain ⟨B,hB,hheap,hfrom,hto,hother,-⟩ := moveConstruct_eq_some hr
    exact hi.moved hheap hB hto hfrom fun j ha hb => hother j hb ha
  | copyAssignSync a b addrs r hr =>
    rcases copyAssign_eq_some hr with rfl|⟨A,B,-,-,hB,hlen,hnodup,hheap,hrw⟩
    · exact hi
    · refine hi.rewrites hrw (Nat.le_of_eq (congrArg List.length hheap.symm)) fun S hS => ?_
      cases hS
      exact hheap ▸ (hi b B hB).copy hlen hnodup
  | moveAssignSync a b r hr =>
    obtain ⟨A,B,-,-,hB,hheap,hto,hfrom,hother,-⟩ := moveAssign_eq_some hr
    exact hi.moved hheap hB hto hfrom hother
  | destroySync j r hr =>
    obtain ⟨hheap,hrw⟩ := destroy_eq_some hr
    exact hi.rewrites hrw (Nat.le_of_eq (congrArg List.length hheap.symm)) nofun
  | connect _ j addr method r _ hr =>
    obtain ⟨T,hT,hfree,hheap,hrw⟩ := connect_eq_some hr
    have hlen : r.heap.length=w.registry.heap.length+1 := by
      rw [hheap,List.length_append,List.length_singleton]
    have hle : w.registry.heap.length ≤ r.heap.length := by omega
    refine hi.rewrites hrw hle fun S hS => ?_
    cases hS
    rw [hlen]
    exact (hi j T hT).append _ (not_mem_of_free hfree hT)
  | disconnect c r hr => exact hi.disconnect hr
  | destroy o handle r ho hr =>
    cases handle with
    | none =>
      cases hr
      exact hi
    | some c => exact hi.disconnect hr

/-- Flags do not matter. -/
theorem allNumbered_settle (busy : List ℕ) (r : Registry μ) :
    AllNumbered (settleRegistry busy r) ↔ AllNumbered r := by
  have hlen : (settleRegistry busy r).heap.length=r.heap.length :=
    ErasedCallables.settleHeap_length busy r.heap
  unfold AllNumbered
  rw [hlen]
  exact Iff.rfl

/-- A list of the same nodes is numbered alike. -/
theorem Numbered.with_conns {bound : ℕ} {S : Sync μ} (h : Numbered bound S) (conns : List ℕ) :
    Numbered bound ⟨S.registered,conns⟩ := h.sublist (List.Sublist.refl S.registered)

/-- Every step keeps all lists numbered, also those which begin or end operations. -/
theorem numbered_scene {s s' : Scene (Method η σ φ δ)} {act : ErasedCallables.Act η σ φ δ}
    (hi : AllNumbered s.world.registry) (h : ErasedCallables.Effect s act s') :
    AllNumbered s'.world.registry := by
  have hsettled : AllNumbered s.settled.registry := (allNumbered_settle _ _).mpr hi
  refine (allNumbered_settle (ErasedCallables.disconnecting s'.pending) _).mp ?_
  change AllNumbered s'.settled.registry
  cases h with
  | whole a _ _ hnext | unlinks a _ _ _ _ _ hnext => exact numbered_step hsettled hnext
  | copies a b addrs A B _ _ _ hB hlen hnodup hheap hrw =>
    refine hsettled.rewrites hrw (Nat.le_of_eq (congrArg List.length hheap.symm)) fun S hS => ?_
    cases hS
    exact hheap ▸ ((hsettled b B hB).copy hlen hnodup).with_conns _
  | clears a b A B _ _ _ _ hheap hrw =>
    refine hsettled.rewrites hrw (Nat.le_of_eq (congrArg List.length hheap.symm)) fun S hS => ?_
    cases hS
    exact (Numbered.fresh _).with_conns _
  | lowers _ _ _ hsame =>
    rw [hsame]
    exact hsettled
  | assigns a b A B _ _ hA _ hheap hrw =>
    refine hsettled.rewrites hrw (Nat.le_of_eq (congrArg List.length hheap.symm)) fun S hS => ?_
    cases hS
    exact hheap ▸ (hsettled a A hA).with_conns _
  | moves a b _ _ hnext => exact numbered_step hsettled hnext

end Numbers

section Slot

open ConnectionObjects (next_effect)

/-- What an operation may do to a list which stays where it is: it keeps every
node it does not erase, and adds a node by a connect only. -/
structure SlotStep (k : ℕ) (w w' : World (Method η σ φ δ)) (a : ConnectionObjects.Act η σ φ δ)
    (S S' : Sync (Method η σ φ δ)) : Prop where
  /-- The list afterwards. -/
  sync : w'.registry.sync k=some S'
  /-- Nodes which stay. -/
  keeps : ∀ n∈S.registered,erased w a≠some (k,n.addr) → n∈S'.registered
  /-- New nodes. -/
  adds : (∃ method,a.connects=some (k,method)) ∨ ∀ n∈S'.registered,n∈S.registered

/-- An untouched slot. -/
theorem SlotStep.same {k : ℕ} {w w' : World (Method η σ φ δ)}
    {a : ConnectionObjects.Act η σ φ δ} {S : Sync (Method η σ φ δ)}
    (h : w'.registry.sync k=some S) : ∃ S',SlotStep k w w' a S S' :=
  ⟨S,h,fun _ hn _ => hn,.inr fun _ hn => hn⟩

/-- A disconnect takes out the node it erases. -/
theorem slotStep_disconnect {k c : ℕ} {w w' : World (Method η σ φ δ)}
    {a : ConnectionObjects.Act η σ φ δ} {S : Sync (Method η σ φ δ)}
    (hS : w.registry.sync k=some S) (herased : erased w a=erasedBy w.registry c)
    (hd : w.registry.disconnect c=some w'.registry) : ∃ S',SlotStep k w w' a S S' := by
  rcases disconnect_slot hd with ⟨-,hsame⟩|⟨j,it,T,hby,hT,-,hrw⟩
  · exact SlotStep.same (hsame ▸ hS)
  · by_cases hj : k=j
    · subst hj
      obtain rfl : S=T := Option.some.inj (hS.symm.trans hT)
      refine ⟨_,hrw.here,fun n hn hne => ?_,.inr fun n hn => List.mem_of_mem_eraseP hn⟩
      refine (List.mem_eraseP_of_neg fun hit => hne ?_).mpr hn
      rw [herased,hby,of_decide_eq_true hit]
    · exact SlotStep.same ((hrw.elsewhere k hj).trans hS)

/-- Every operation under which the `sync` stays. -/
theorem slot_step {k : ℕ} {w w' : World (Method η σ φ δ)} {a : ConnectionObjects.Act η σ φ δ}
    {S : Sync (Method η σ φ δ)} (hstays : Stays k a) (hS : w.registry.sync k=some S)
    (h : ConnectionObjects.next w a=some w') : ∃ S',SlotStep k w w' a S S' := by
  have hlt : k≠w.registry.syncs.length := ne_length_of_sync hS
  cases next_effect h with
  | create => exact SlotStep.same (((rewrites_append _ _).elsewhere k hlt).trans hS)
  | construct | assign | moveConstruct | moveSelf | moveAssign => exact SlotStep.same hS
  | copySync b addrs r hr =>
    obtain ⟨B,-,-,-,-,hrw⟩ := copyConstruct_eq_some hr
    exact SlotStep.same ((hrw.elsewhere k hlt).trans hS)
  | moveSync b r hr =>
    obtain ⟨B,-,-,-,-,hother,-⟩ := moveConstruct_eq_some hr
    exact SlotStep.same ((hother k (Ne.symm hstays) hlt).trans hS)
  | copyAssignSync a b addrs r hr =>
    rcases copyAssign_eq_some hr with rfl|⟨A,B,hne,-,-,-,-,-,hrw⟩
    · exact SlotStep.same hS
    · have hk : a≠k := hstays.resolve_right hne
      exact SlotStep.same ((hrw.elsewhere k (Ne.symm hk)).trans hS)
  | moveAssignSync a b r hr =>
    obtain ⟨A,B,-,-,-,-,-,-,hother,-⟩ := moveAssign_eq_some hr
    exact SlotStep.same ((hother k (Ne.symm hstays.1) (Ne.symm hstays.2)).trans hS)
  | destroySync j r hr =>
    obtain ⟨-,hrw⟩ := destroy_eq_some hr
    exact SlotStep.same ((hrw.elsewhere k (Ne.symm hstays)).trans hS)
  | connect _ j addr method r ha hr =>
    obtain ⟨T,hT,-,-,hrw⟩ := connect_eq_some hr
    by_cases hj : k=j
    · subst hj
      obtain rfl : S=T := Option.some.inj (hS.symm.trans hT)
      exact ⟨_,hrw.here,fun n hn _ => List.mem_append_left _ hn,.inl ⟨method,ha⟩⟩
    · exact SlotStep.same ((hrw.elsewhere k hj).trans hS)
  | disconnect c r hr => exact slotStep_disconnect hS rfl hr
  | destroy o handle r ho hr =>
    cases handle with
    | none =>
      cases hr
      exact SlotStep.same hS
    | some c =>
      refine slotStep_disconnect (c := c) hS ?_ hr
      rw [erased,ErasedCallables.handle,ho]
      rfl

/-- The node an operation erases is gone afterwards. -/
theorem erased_gone {k addr : ℕ} {w w' : World (Method η σ φ δ)}
    {a : ConnectionObjects.Act η σ φ δ} (hi : AllNumbered w.registry)
    (herased : erased w a=some (k,addr)) (h : ConnectionObjects.next w a=some w') :
    ∃ S,w'.registry.sync k=some S ∧ addr∉S.addrs := by
  have hgone : ∀ c,erasedBy w.registry c=some (k,addr) →
      w.registry.disconnect c=some w'.registry → ∃ S,w'.registry.sync k=some S ∧
        addr∉S.addrs := by
    intro c hc hd
    rcases disconnect_slot hd with ⟨hnone,-⟩|⟨j,it,T,hby,hT,-,hrw⟩
    · rw [hc] at hnone
      cases hnone
    · obtain ⟨rfl,rfl⟩ : k=j ∧ addr=it := Prod.mk.inj (Option.some.inj (hc.symm.trans hby))
      refine ⟨_,hrw.here,fun hmem => ?_⟩
      rw [Sync.addrs,eraseP_eq_filter Node.addr _ _ (hi k T hT).addrs] at hmem
      obtain ⟨n,hn,hn'⟩ := List.mem_map.mp hmem
      exact of_decide_eq_true (List.mem_filter.mp hn).2 hn'
  cases a with
  | disconnect c =>
    obtain ⟨r,hr,rfl⟩ := ConnectionObjects.withRegistry_eq_some h
    exact hgone c herased hr
  | destroy o =>
    cases next_effect h with
    | destroy o handle r ho hr =>
      rw [erased,ErasedCallables.handle,ho] at herased
      cases handle with
      | none => cases herased
      | some c => exact hgone c herased hr
    | connect _ _ _ _ _ ha _ => cases ha
  | _ => cases herased

/-- A regular operation erases the same node among the settled connections. -/
theorem erased_settled {s : Scene μ} {a : ConnectionObjects.Act η σ φ δ} (h : Regular s a) :
    erased s.settled a=erased s.world a := by
  have hsame : handle s.settled a=handle s.world a := by
    cases a <;> rfl
  unfold erased
  rw [hsame]
  cases hc : handle s.world a with
  | none => rfl
  | some c =>
    change erasedBy s.settled.registry c=erasedBy s.world.registry c
    have hget : s.settled.registry.heap[c]?=_ :=
      ErasedCallables.getElem?_settleHeap _ s.world.registry.heap c
    cases hl : s.world.registry.locks c with
    | false =>
      have hl' : s.settled.registry.locks c=false := hl
      simp only [erasedBy,hl,hl',Bool.false_eq_true,false_and,if_false]
      cases s.settled.registry.heap[c]? <;> cases s.world.registry.heap[c]? <;> rfl
    | true =>
      simp only [if_neg (h.handle_found hc hl).1,Option.map_id'] at hget
      unfold erasedBy
      rw [hget]
      rfl

/-- What a step of a scene does to a list which remains where it is. -/
structure SceneStep (k : ℕ) (s : Scene (Method η σ φ δ)) (act : ErasedCallables.Act η σ φ δ)
    (s' : Scene (Method η σ φ δ)) (S S' : Sync (Method η σ φ δ)) : Prop where
  /-- The list afterwards. -/
  sync : s'.world.registry.sync k=some S'
  /-- Nodes which stay. -/
  keeps : ∀ n∈S.registered,erases s act≠some (k,n.addr) → n∈S'.registered
  /-- New nodes. -/
  adds : (∃ method,connects act=some (k,method)) ∨ ∀ n∈S'.registered,n∈S.registered

/-- Every step under which the `sync` remains. -/
theorem scene_step {k : ℕ} {s s' : Scene (Method η σ φ δ)} {act : ErasedCallables.Act η σ φ δ}
    {S : Sync (Method η σ φ δ)} (hremains : Remains k s act)
    (hS : s.world.registry.sync k=some S) (h : ErasedCallables.Effect s act s') :
    ∃ S',SceneStep k s act s' S S' := by
  have hsame : s'.world.registry.sync k=some S → ∃ S',SceneStep k s act s' S S' := fun hsync =>
    ⟨S,hsync,fun _ hn _ => hn,.inr fun _ hn => hn⟩
  have hsettled : s.settled.registry.sync k=some S := hS
  cases h with
  | whole a _ hreg hnext =>
    obtain ⟨S',hstep⟩ := slot_step hremains hsettled hnext
    exact ⟨S',hstep.sync,fun n hn hne => hstep.keeps n hn (by rwa [erased_settled hreg]),
      hstep.adds⟩
  | unlinks a c _ hreg _ _ hnext =>
    obtain ⟨S',hstep⟩ := slot_step hremains hsettled hnext
    exact ⟨S',hstep.sync,fun n hn hne => hstep.keeps n hn (by rwa [erased_settled hreg]),
      hstep.adds⟩
  | copies a b addrs A B _ hne _ _ _ _ _ hrw =>
    have hk : a≠k := hremains.resolve_right hne
    exact hsame ((hrw.elsewhere k (Ne.symm hk)).trans hS)
  | clears a b A B _ _ _ _ _ hrw => exact hsame ((hrw.elsewhere k (Ne.symm hremains.1)).trans hS)
  | lowers c _ _ hrest =>
    refine hsame ?_
    change s'.settled.registry.sync k=some S
    rw [hrest]
    exact hsettled
  | assigns a b A B _ hpending _ _ _ hrw =>
    have hk := hremains (.copyAssigning a b) (by rw [hpending]; rfl)
    exact hsame ((hrw.elsewhere k (Ne.symm (of_decide_eq_false hk))).trans hS)
  | moves a b _ hpending hnext =>
    have hk := of_decide_eq_false (hremains (.moveAssigning a b) (by rw [hpending]; rfl))
    have hstays : Stays k (.moveAssignSync a b : ConnectionObjects.Act η σ φ δ) :=
      ⟨fun ha => hk (.inl ha),fun hb => hk (.inr hb)⟩
    obtain ⟨S',hstep⟩ := slot_step hstays hsettled hnext
    exact ⟨S',hstep.sync,fun n hn _ => hstep.keeps n hn nofun,
      .inr (hstep.adds.resolve_left nofun)⟩

/-- The node a step erases is gone afterwards. -/
theorem erases_gone {k addr : ℕ} {s s' : Scene (Method η σ φ δ)}
    {act : ErasedCallables.Act η σ φ δ} (hi : AllNumbered s.world.registry)
    (herases : erases s act=some (k,addr)) (h : ErasedCallables.Effect s act s') :
    ∃ S,s'.world.registry.sync k=some S ∧ addr∉S.addrs := by
  have hsettled : AllNumbered s.settled.registry := (allNumbered_settle _ _).mpr hi
  cases h with
  | whole a _ hreg hnext | unlinks a _ _ hreg _ _ hnext =>
    have hgone : ∃ S,s'.settled.registry.sync k=some S ∧ addr∉S.addrs :=
      erased_gone hsettled ((erased_settled hreg).trans herases) hnext
    exact hgone
  | copies | clears | lowers | assigns | moves => cases herases

end Slot

section Loop

/-- `begin()` is an exact first turn. -/
theorem begin_exact {bound : ℕ} {S : Sync μ} (h : Numbered bound S) :
    (⟨none,origins S,S.registered.head?.map Node.origin⟩ : Turn ℕ).Exact := by
  obtain ⟨hsound,hfirst⟩ := head_spec h.sorted
  refine ⟨fun b hb => ?_,fun c hc _ => ?_⟩
  · obtain ⟨n,hn,rfl⟩ := Option.map_eq_some_iff.mp hb
    exact ⟨List.mem_map.mpr ⟨n,hsound n hn,rfl⟩,nofun⟩
  · obtain ⟨m,hm,rfl⟩ := List.mem_map.mp hc
    obtain ⟨n,hn,hle⟩ := hfirst m hm
    exact ⟨n.origin,Option.map_eq_some_iff.mpr ⟨n,hn,rfl⟩,hle⟩

/-- `++it` from a node which is still there is an exact turn. -/
theorem advance_exact {bound : ℕ} {S : Sync μ} {f : Frame} (h : Numbered bound S)
    (hnode : ∃ n∈S.registered,n.addr=f.it ∧ n.origin=f.origin) :
    (⟨some f.origin,origins S,(following (fun n => decide (n.addr=f.it)) S.registered).map
      Node.origin⟩ : Turn ℕ).Exact := by
  obtain ⟨n,hn,haddr,horigin⟩ := hnode
  have hunique : ∀ m∈S.registered,(decide (m.addr=f.it)=true ↔ m=n) := by
    intro m hm
    rw [decide_eq_true_eq]
    refine ⟨fun hm' => ?_,fun heq => heq ▸ haddr⟩
    exact List.inj_on_of_nodup_map h.addrs hm hn (hm'.trans haddr.symm)
  obtain ⟨hsound,hfirst⟩ := following_spec h.sorted hn hunique
  refine ⟨fun b hb => ?_,fun c hc hahead => ?_⟩
  · obtain ⟨m,hm,rfl⟩ := Option.map_eq_some_iff.mp hb
    obtain ⟨hmem,hlt⟩ := hsound m hm
    refine ⟨List.mem_map.mpr ⟨m,hmem,rfl⟩,fun a ha => ?_⟩
    obtain rfl : f.origin=a := Option.some.inj ha
    omega
  · obtain ⟨m,hm,rfl⟩ := List.mem_map.mp hc
    have hlt : f.origin < m.origin := hahead f.origin rfl
    obtain ⟨l,hl,hle⟩ := hfirst m hm (by omega)
    exact ⟨l.origin,Option.map_eq_some_iff.mpr ⟨l,hl,rfl⟩,hle⟩

/-- What the iterator comes to is in the list. -/
theorem mem_of_following {p : Node μ → Bool} {xs : List (Node μ)} {n : Node μ}
    (h : following p xs=some n) : n∈xs := by
  have hsuffix : (xs.dropWhile fun x => !p x).tail <:+ xs :=
    (List.tail_suffix _).trans (List.dropWhile_suffix _)
  exact hsuffix.subset (List.mem_of_head? h)

end Loop

end FastEventSystem.DispatchLoop
