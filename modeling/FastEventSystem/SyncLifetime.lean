import FastEventSystem.RegistryOrder
import FastEventSystem.ErasedCallables

/-!
# Handles which can be locked and the lists they refer to

A handle can be locked while any living `sync` has the connection in its
vector, but the connection refers to the list of one particular `sync`. Copying
a `sync` shares the connections and moving it carries them away, while the
references keep pointing at the old object. In the middle of a disconnect the
node is unlinked while the flag is still raised, and in the middle of an
assignment the old connections of the target can be locked without its old list.
A handle stays safe as long as no list is destroyed, overwritten or moved away
under a connection which stays lockable, and no destructor of a callable repeats
the disconnect it runs in.
-/

namespace FastEventSystem.SyncLifetime

open SlotTable SyncRegistry RegistryOrder GuardedRuns ErasedCallables
open ConnectionObjects (World heap_effect)

variable {μ η σ φ δ : Type*}

/-- The handle can be locked through some object other than the given one. -/
def locksWithout (r : Registry μ) (k c : ℕ) : Bool :=
  anyLive (fun S => decide (c∈S.conns)) (r.syncs.set k none)

/-- No connection which refers to the list of the given slot and passes the
test can be locked in the given way. -/
def Unshared (r : Registry μ) (k : ℕ) (test : InternalConnection μ → Bool)
    (locked : ℕ → Bool) : Prop :=
  ∀ c < r.heap.length,∀ conn∈r.heap[c]?,conn.registered=k → test conn=true → locked c=false

instance (r : Registry μ) (k : ℕ) (test : InternalConnection μ → Bool) (locked : ℕ → Bool) :
    Decidable (Unshared r k test locked) :=
  inferInstanceAs (Decidable (∀ c < r.heap.length,∀ conn∈r.heap[c]?,_))

/-- No list is destroyed, overwritten or moved away under a connection which
stays lockable. -/
def KeepsLists (w : World (Method η σ φ δ)) : ConnectionObjects.Act η σ φ δ → Prop
  | .destroySync k =>
    Unshared w.registry k (fun _ => true) (locksWithout w.registry k)
  | .copyAssignSync a b _ =>
    a=b ∨ Unshared w.registry a InternalConnection.connected (locksWithout w.registry a)
  | .moveSync b => Unshared w.registry b InternalConnection.connected w.registry.locks
  | .moveAssignSync a b =>
    Unshared w.registry a InternalConnection.connected (locksWithout w.registry a) ∧
      Unshared w.registry b InternalConnection.connected (locksWithout w.registry a)
  | _ => True

instance (w : World (Method η σ φ δ)) :
    (a : ConnectionObjects.Act η σ φ δ) → Decidable (KeepsLists w a)
  | .destroySync _ | .moveSync _ => inferInstanceAs (Decidable (Unshared ..))
  | .copyAssignSync .. => inferInstanceAs (Decidable (_ ∨ _))
  | .moveAssignSync .. => inferInstanceAs (Decidable (_ ∧ _))
  | .create | .copySync .. | .connect .. | .connectBind .. | .connectSync ..
  | .connectFast .. | .connectDelay .. | .disconnect _ | .construct _ | .assign ..
  | .moveConstruct _ | .moveAssign .. | .destroy _ => inferInstanceAs (Decidable True)

/-- The connection refers to the list of a living `sync`, and while it is
connected its iterator designates its own node of that list. -/
def Designates (r : Registry μ) (c : ℕ) : Prop :=
  ∃ conn S,r.heap[c]?=some conn ∧ r.sync conn.registered=some S ∧
    (conn.connected=true → ⟨conn.it,conn.method,c⟩∈S.registered)

/-- Every handle which can be locked is safe to use. -/
structure Linked (r : Registry μ) : Prop where
  /-- Lockable connections designate their nodes. -/
  designates : ∀ c,r.locks c=true → Designates r c
  /-- No two nodes of a list share an address. -/
  addrs : ∀ k S,r.sync k=some S → S.addrs.Nodup

/-- Locking without one slot means locking through another one. -/
theorem locksWithout_iff (r : Registry μ) (k c : ℕ) :
    locksWithout r k c=true ↔ ∃ j S,j≠k ∧ r.sync j=some S ∧ c∈S.conns := by
  rw [locksWithout,anyLive_iff]
  refine exists_congr fun j => exists_congr fun S => ?_
  rw [decide_eq_true_eq]
  by_cases hj : j=k
  · subst hj
    have hnone : live (r.syncs.set j none) j≠some S := by
      intro hS
      have hlt := lt_of_live hS
      rw [List.length_set] at hlt
      rw [live_set_self none hlt] at hS
      cases hS
    simp only [hnone,ne_eq,not_true_eq_false,false_and]
  · rw [live_set_of_ne _ _ hj]
    simp only [ne_eq,hj,not_false_eq_true,true_and]
    rfl

/-- Locking through another object is locking. -/
theorem locks_of_locksWithout {r : Registry μ} {k c : ℕ} (h : locksWithout r k c=true) :
    r.locks c=true := by
  obtain ⟨j,S,-,hS,hmem⟩ := (locksWithout_iff r k c).mp h
  exact (locks_iff r c).mpr ⟨j,S,hS,hmem⟩

/-- After one slot was rewritten, a handle locks through the new object or
through another slot, as before. -/
theorem locks_of_rewrites {r r' : Registry μ} {k c : ℕ} {o : Option (Sync μ)}
    (h : Rewrites r k o r') (hl : r'.locks c=true) :
    (∃ S,o=some S ∧ c∈S.conns) ∨ locksWithout r k c=true := by
  obtain ⟨j,S,hS,hmem⟩ := (locks_iff _ _).mp hl
  by_cases hj : j=k
  · rw [hj,h.here] at hS
    exact .inl ⟨S,hS,hmem⟩
  · rw [h.elsewhere j hj] at hS
    exact .inr ((locksWithout_iff r k c).mpr ⟨j,S,hj,hS,hmem⟩)

/-- Copies lie at the given addresses. -/
theorem copyNodes_addrs {nodes : List (Node μ)} {addrs : List ℕ}
    (h : addrs.length=nodes.length) : (copyNodes nodes addrs).map Node.addr=addrs := by
  rw [copyNodes,List.map_zipWith]
  induction nodes generalizing addrs with
  | nil => exact (List.length_eq_zero_iff.mp h).symm
  | cons n nodes ih =>
    cases addrs with
    | nil => cases h
    | cons addr addrs =>
      rw [List.zipWith_cons_cons,ih (Nat.succ.inj h)]

/-- A test which fails for a lockable connection of an unshared slot. -/
theorem Unshared.test_eq_false {r : Registry μ} {k c : ℕ} {test : InternalConnection μ → Bool}
    {locked : ℕ → Bool} {conn : InternalConnection μ} (h : Unshared r k test locked)
    (hc : r.heap[c]?=some conn) (hk : conn.registered=k) (hl : locked c=true) :
    test conn=false := by
  obtain ⟨hlt,-⟩ := List.getElem?_eq_some_iff.mp hc
  cases ht : test conn with
  | false => rfl
  | true =>
    rw [h c hlt conn hc hk ht] at hl
    cases hl

/-- A connection keeps designating its node when its list is untouched, and
needs only a living list once it is disconnected. -/
theorem Designates.transfer {r r' : Registry μ} {c : ℕ} (h : Designates r c)
    (hheap : r'.heap=r.heap)
    (hlist : ∀ conn S,r.heap[c]?=some conn → r.sync conn.registered=some S →
      r'.sync conn.registered=some S ∨
        conn.connected=false ∧ ∃ S',r'.sync conn.registered=some S') : Designates r' c := by
  obtain ⟨conn,S,hc,hS,hnode⟩ := h
  rcases hlist conn S hc hS with hsame|⟨hflag,S',hS'⟩
  · exact ⟨conn,S,hheap ▸ hc,hsame,hnode⟩
  · refine ⟨conn,S',hheap ▸ hc,hS',fun hflag' => ?_⟩
    rw [hflag] at hflag'
    cases hflag'

/-- A living slot is not the next free one. -/
theorem ne_length_of_sync {r : Registry μ} {k : ℕ} {S : Sync μ} (h : r.sync k=some S) :
    k≠r.syncs.length := by
  have hlt : k < r.syncs.length := lt_of_live h
  omega

/-- A new `sync` keeps no connection and no node. -/
theorem Linked.create {r : Registry μ} (h : Linked r) : Linked r.create := by
  have hrw : Rewrites r r.syncs.length (some Sync.fresh) r.create := rewrites_append r _
  refine ⟨fun c hl => ?_,hrw.forall_sync h.addrs fun S hS => ?_⟩
  · have hlocks : r.locks c=true := by
      rcases locks_of_rewrites hrw hl with ⟨S,hS,hmem⟩|hw
      · cases hS
        exact False.elim (List.not_mem_nil hmem)
      · exact locks_of_locksWithout hw
    refine (h.designates c hlocks).transfer rfl fun conn T _ hT => .inl ?_
    exact (hrw.elsewhere _ (ne_length_of_sync hT)).trans hT
  · cases hS
    exact List.nodup_nil

/-- A copy shares the connections of a living original. -/
theorem Linked.copyConstruct {r r' : Registry μ} {b : ℕ} {addrs : List ℕ} (h : Linked r)
    (hr : r.copyConstruct b addrs=some r') : Linked r' := by
  obtain ⟨B,hB,hlen,hnodup,hheap,hrw⟩ := copyConstruct_eq_some hr
  refine ⟨fun c hl => ?_,hrw.forall_sync h.addrs fun S hS => ?_⟩
  · have hlocks : r.locks c=true := by
      rcases locks_of_rewrites hrw hl with ⟨S,hS,hmem⟩|hw
      · cases hS
        exact (locks_iff r c).mpr ⟨b,B,hB,hmem⟩
      · exact locks_of_locksWithout hw
    refine (h.designates c hlocks).transfer hheap fun conn T _ hT => .inl ?_
    exact (hrw.elsewhere _ (ne_length_of_sync hT)).trans hT
  · cases hS
    rw [Sync.addrs,copyNodes_addrs hlen]
    exact hnodup

/-- Moving away a list without lockable connected connections is harmless. -/
theorem Linked.moveConstruct {r r' : Registry μ} {b : ℕ} (h : Linked r)
    (hok : Unshared r b InternalConnection.connected r.locks)
    (hr : r.moveConstruct b=some r') : Linked r' := by
  obtain ⟨B,hB,hheap,hfrom,hto,hother,-⟩ := moveConstruct_eq_some hr
  constructor
  · intro c hl
    obtain ⟨k,S,hS,hmem⟩ := (locks_iff _ _).mp hl
    have hlocks : r.locks c=true := by
      by_cases hk : k=r.syncs.length
      · rw [hk,hto,Option.some.injEq] at hS
        rw [←hS] at hmem
        exact (locks_iff r c).mpr ⟨b,B,hB,hmem⟩
      · by_cases hb : k=b
        · rw [hb,hfrom,Option.some.injEq] at hS
          rw [←hS] at hmem
          exact False.elim (List.not_mem_nil hmem)
        · rw [hother k hb hk] at hS
          exact (locks_iff r c).mpr ⟨k,S,hS,hmem⟩
    refine (h.designates c hlocks).transfer hheap fun conn T hc hT => ?_
    by_cases hb : conn.registered=b
    · exact .inr ⟨hok.test_eq_false hc hb hlocks,_,hb ▸ hfrom⟩
    · exact .inl ((hother _ hb (ne_length_of_sync hT)).trans hT)
  · have hrest : ∀ j,j≠r.syncs.length → j≠b → r'.sync j=r.sync j := fun j hj hb => hother j hb hj
    exact forall_sync_of_moved hB hto hfrom hrest List.nodup_nil h.addrs

/-- Overwriting a list is harmless when its connected connections are in no
other vector. -/
theorem Linked.copyAssign {r r' : Registry μ} {a b : ℕ} {addrs : List ℕ} (h : Linked r)
    (hok : a=b ∨ Unshared r a InternalConnection.connected (locksWithout r a))
    (hr : r.copyAssign a b addrs=some r') : Linked r' := by
  rcases copyAssign_eq_some hr with rfl|⟨A,B,hne,hA,hB,hlen,hnodup,hheap,hrw⟩
  · exact h
  have hsafe := hok.resolve_left hne
  refine ⟨fun c hl => ?_,hrw.forall_sync h.addrs fun S hS => ?_⟩
  · have hwithout : locksWithout r a c=true := by
      rcases locks_of_rewrites hrw hl with ⟨S,hS,hmem⟩|hw
      · cases hS
        exact (locksWithout_iff r a c).mpr ⟨b,B,Ne.symm hne,hB,hmem⟩
      · exact hw
    have hold := h.designates c (locks_of_locksWithout hwithout)
    refine hold.transfer hheap fun conn T hc hT => ?_
    by_cases ha : conn.registered=a
    · exact .inr ⟨hsafe.test_eq_false hc ha hwithout,_,ha ▸ hrw.here⟩
    · exact .inl ((hrw.elsewhere _ ha).trans hT)
  · cases hS
    rw [Sync.addrs,copyNodes_addrs hlen]
    exact hnodup

/-- The same for move assignment, with the list moved away treated alike. -/
theorem Linked.moveAssign {r r' : Registry μ} {a b : ℕ} (h : Linked r)
    (hoka : Unshared r a InternalConnection.connected (locksWithout r a))
    (hokb : Unshared r b InternalConnection.connected (locksWithout r a))
    (hr : r.moveAssign a b=some r') : Linked r' := by
  obtain ⟨A,B,hne,hA,hB,hheap,hto,hfrom,hother,-⟩ := moveAssign_eq_some hr
  constructor
  · intro c hl
    obtain ⟨k,S,hS,hmem⟩ := (locks_iff _ _).mp hl
    have hwithout : locksWithout r a c=true := by
      by_cases hk : k=a
      · rw [hk,hto,Option.some.injEq] at hS
        rw [←hS] at hmem
        exact (locksWithout_iff r a c).mpr ⟨b,B,Ne.symm hne,hB,hmem⟩
      · by_cases hb : k=b
        · rw [hb,hfrom,Option.some.injEq] at hS
          rw [←hS] at hmem
          exact False.elim (List.not_mem_nil hmem)
        · rw [hother k hk hb] at hS
          exact (locksWithout_iff r a c).mpr ⟨k,S,hk,hS,hmem⟩
    have hold := h.designates c (locks_of_locksWithout hwithout)
    refine hold.transfer hheap fun conn T hc hT => ?_
    by_cases ha : conn.registered=a
    · exact .inr ⟨hoka.test_eq_false hc ha hwithout,_,ha ▸ hto⟩
    · by_cases hb : conn.registered=b
      · exact .inr ⟨hokb.test_eq_false hc hb hwithout,_,hb ▸ hfrom⟩
      · exact .inl ((hother _ ha hb).trans hT)
  · exact forall_sync_of_moved hB hto hfrom hother List.nodup_nil h.addrs

/-- Destroying a `sync` is harmless when its connections are in no other
vector. -/
theorem Linked.destroy {r r' : Registry μ} {k : ℕ} (h : Linked r)
    (hok : Unshared r k (fun _ => true) (locksWithout r k)) (hr : r.destroy k=some r') :
    Linked r' := by
  obtain ⟨hheap,hrw⟩ := destroy_eq_some hr
  refine ⟨fun c hl => ?_,hrw.forall_sync h.addrs fun S hS => nomatch hS⟩
  have hwithout : locksWithout r k c=true := by
    rcases locks_of_rewrites hrw hl with ⟨S,hS,-⟩|hw
    · cases hS
    · exact hw
  have hold := h.designates c (locks_of_locksWithout hwithout)
  refine hold.transfer hheap fun conn T hc hT => .inl ?_
  have hk : conn.registered≠k := by
    intro hk
    exact Bool.noConfusion (hok.test_eq_false hc hk hwithout)
  exact (hrw.elsewhere _ hk).trans hT

/-- Connecting gives the new connection its node and leaves all others theirs. -/
theorem Linked.connect {r r' : Registry μ} {k addr : ℕ} {method : μ} (h : Linked r)
    (hr : r.connect k addr method=some r') : Linked r' := by
  obtain ⟨T,hT,hfree,hheap,hrw⟩ := connect_eq_some hr
  have hnew : Designates r' r.heap.length := by
    refine ⟨⟨addr,k,true,method⟩,_,?_,hrw.here,fun _ => ?_⟩
    · rw [hheap,List.getElem?_concat_length]
    · exact List.mem_append_right _ List.mem_cons_self
  have hold : ∀ c,r.locks c=true → Designates r' c := by
    intro c hl
    obtain ⟨conn,S,hc,hS,hnode⟩ := h.designates c hl
    obtain ⟨hlt,-⟩ := List.getElem?_eq_some_iff.mp hc
    have hc' : r'.heap[c]?=some conn := by
      rw [hheap,List.getElem?_append_left hlt]
      exact hc
    by_cases hk : conn.registered=k
    · rw [hk,hT,Option.some.injEq] at hS
      refine ⟨conn,_,hc',hk ▸ hrw.here,fun hflag => ?_⟩
      exact List.mem_append_left _ (hS ▸ hnode hflag)
    · exact ⟨conn,S,hc',(hrw.elsewhere _ hk).trans hS,hnode⟩
  refine ⟨fun c hl => ?_,hrw.forall_sync h.addrs fun S hS => ?_⟩
  · rcases locks_of_rewrites hrw hl with ⟨S,hS,hmem⟩|hw
    · cases hS
      rcases List.mem_append.mp hmem with hmem|hmem
      · exact hold c ((locks_iff r c).mpr ⟨k,T,hT,hmem⟩)
      · rw [List.mem_singleton.mp hmem]
        exact hnew
    · exact hold c (locks_of_locksWithout hw)
  · cases hS
    rw [Sync.addrs,List.map_append,List.map_singleton]
    refine List.Nodup.append (h.addrs k T hT) (List.nodup_singleton _) ?_
    exact List.disjoint_singleton.mpr (not_mem_of_free hfree hT)

/-- Disconnecting a lockable connection erases its own node and no other. -/
theorem Linked.disconnect {r r' : Registry μ} {d : ℕ} (h : Linked r)
    (hr : r.disconnect d=some r') : Linked r' := by
  unfold Registry.disconnect at hr
  split at hr
  · rename_i hlocksd
    obtain ⟨old,hd,⟨-,rfl⟩|⟨T,hflag,hT,hit,hheap,hrw⟩⟩ := disconnectConn_eq_some hr
    · exact h
    have herase : (T.registered.eraseP fun n => n.addr=old.it)=
        T.registered.filter fun n => n.addr≠old.it :=
      eraseP_eq_filter Node.addr T.registered old.it (h.addrs _ T hT)
    have hown : ⟨old.it,old.method,d⟩∈T.registered := by
      obtain ⟨conn,S,hc,hS,hnode⟩ := h.designates d hlocksd
      rw [hd,Option.some.injEq] at hc
      subst hc
      rw [hT,Option.some.injEq] at hS
      exact hS ▸ hnode hflag
    refine ⟨fun c hl => ?_,hrw.forall_sync h.addrs fun S hS => ?_⟩
    · have hlocks : r.locks c=true := by
        rcases locks_of_rewrites hrw hl with ⟨S,hS,hmem⟩|hw
        · cases hS
          exact (locks_iff r c).mpr ⟨_,T,hT,hmem⟩
        · exact locks_of_locksWithout hw
      obtain ⟨conn,S,hc,hS,hnode⟩ := h.designates c hlocks
      by_cases hcd : c=d
      · obtain ⟨hlt,-⟩ := List.getElem?_eq_some_iff.mp hd
        refine ⟨{old with connected := false},_,?_,hrw.here,fun hf => nomatch hf⟩
        rw [hcd,hheap,List.getElem?_set_self hlt]
      · have hc' : r'.heap[c]?=some conn := by
          rw [hheap,List.getElem?_set_ne (Ne.symm hcd)]
          exact hc
        by_cases hreg : conn.registered=old.registered
        · rw [hreg,hT,Option.some.injEq] at hS
          refine ⟨conn,_,hc',hreg ▸ hrw.here,fun hf => ?_⟩
          have hmine : ⟨conn.it,conn.method,c⟩∈T.registered := hS ▸ hnode hf
          have haddr : conn.it≠old.it := by
            intro heq
            have hsame := List.inj_on_of_nodup_map (h.addrs _ T hT) hmine hown heq
            exact hcd (congrArg Node.origin hsame)
          change ⟨conn.it,conn.method,c⟩∈T.registered.eraseP fun n => n.addr=old.it
          rw [herase]
          exact List.mem_filter.mpr ⟨hmine,decide_eq_true haddr⟩
        · exact ⟨conn,S,hc',(hrw.elsewhere _ hreg).trans hS,hnode⟩
    · cases hS
      exact (h.addrs _ T hT).sublist (List.Sublist.map _ List.eraseP_sublist)
  · cases hr
    exact h

/-- Every admitted operation leaves lockable handles safe. -/
theorem linked_step {w w' : World (Method η σ φ δ)} {a : ConnectionObjects.Act η σ φ δ}
    (hi : Linked w.registry) (hok : KeepsLists w a) (h : ConnectionObjects.next w a=some w') :
    Linked w'.registry := by
  cases ConnectionObjects.next_effect h with
  | create => exact hi.create
  | copySync b addrs r hr => exact hi.copyConstruct hr
  | moveSync b r hr => exact hi.moveConstruct hok hr
  | copyAssignSync a b addrs r hr => exact hi.copyAssign hok hr
  | moveAssignSync a b r hr => exact hi.moveAssign hok.1 hok.2 hr
  | destroySync k r hr => exact hi.destroy hok hr
  | connect _ k addr method r _ hr => exact hi.connect hr
  | disconnect c r hr => exact hi.disconnect hr
  | construct | assign | moveConstruct | moveSelf | moveAssign => exact hi
  | destroy o handle r ho hr =>
    cases handle with
    | none =>
      cases hr
      exact hi
    | some c => exact hi.disconnect hr

/-- Nothing can be locked yet. -/
theorem linked_start : Linked (World.start : World μ).registry where
  designates _ h := nomatch h
  addrs _ _ h := nomatch h

section Middles

/-- The old list of the target goes before its old connections, so none of them
which is connected may be lockable. -/
def KeepsTarget (r : Registry μ) : ConnectionObjects.Act η σ φ δ → Prop
  | .copyAssignSync a _ _ | .moveAssignSync a _ =>
    Unshared r a InternalConnection.connected r.locks
  | _ => True

/-- What the end of an operation asks for. -/
def KeepsRest (w : World (Method η σ φ δ)) : Pending → Prop
  | .moveAssigning a b => KeepsLists w (.moveAssignSync a b)
  | _ => True

/-- The operation repeats no disconnect which is in its middle, and no operation in
its middle excludes it. -/
def Apart (s : Scene μ) (a : ConnectionObjects.Act η σ φ δ) : Prop :=
  s.clashes a=false ∧ ∀ c∈handle s.world a,c∉disconnecting s.pending

/-- No step takes a list away from under a connection which stays lockable, and no
destructor repeats the disconnect it runs in or uses a list which is being
assigned. -/
def Keeps (s : Scene (Method η σ φ δ)) : Act η σ φ δ → Prop
  | .whole a => Apart s a ∧ KeepsLists s.settled a
  | .begins a => Apart s a ∧ KeepsTarget s.settled.registry a
  | .ends => ∀ p∈s.pending.head?,KeepsRest s.settled p

instance (r : Registry μ) : (a : ConnectionObjects.Act η σ φ δ) → Decidable (KeepsTarget r a)
  | .copyAssignSync .. | .moveAssignSync .. => inferInstanceAs (Decidable (Unshared ..))
  | .create | .copySync .. | .moveSync _ | .destroySync _ | .connect .. | .connectBind ..
  | .connectSync .. | .connectFast .. | .connectDelay .. | .disconnect _ | .construct _
  | .assign .. | .moveConstruct _ | .moveAssign .. | .destroy _ =>
    inferInstanceAs (Decidable True)

instance (w : World (Method η σ φ δ)) : (p : Pending) → Decidable (KeepsRest w p)
  | .moveAssigning a b => inferInstanceAs (Decidable (KeepsLists w (.moveAssignSync a b)))
  | .disconnecting _ | .copyAssigning .. => inferInstanceAs (Decidable True)

instance (s : Scene μ) (a : ConnectionObjects.Act η σ φ δ) : Decidable (Apart s a) :=
  inferInstanceAs (Decidable (_ ∧ ∀ c∈handle s.world a,_))

instance (s : Scene (Method η σ φ δ)) : (a : Act η σ φ δ) → Decidable (Keeps s a)
  | .whole _ | .begins _ => inferInstanceAs (Decidable (_ ∧ _))
  | .ends => inferInstanceAs (Decidable (∀ p∈s.pending.head?,_))

/-- A list may be replaced while none of its connected connections is lockable. -/
theorem Linked.renew {r r' : Registry μ} {a : ℕ} {A : Sync μ} {nodes : List (Node μ)}
    (h : Linked r) (hok : Unshared r a InternalConnection.connected r.locks)
    (hA : r.sync a=some A) (hnodup : (nodes.map Node.addr).Nodup) (hheap : r'.heap=r.heap)
    (hrw : Rewrites r a (some ⟨nodes,A.conns⟩) r') : Linked r' := by
  refine ⟨fun c hl => ?_,hrw.forall_sync h.addrs fun S hS => ?_⟩
  · have hlocks : r.locks c=true := by
      rcases locks_of_rewrites hrw hl with ⟨S,hS,hmem⟩|hw
      · cases hS
        exact (locks_iff r c).mpr ⟨a,A,hA,hmem⟩
      · exact locks_of_locksWithout hw
    refine (h.designates c hlocks).transfer hheap fun conn T hc hT => ?_
    by_cases ha : conn.registered=a
    · exact .inr ⟨hok.test_eq_false hc ha hlocks,_,ha ▸ hrw.here⟩
    · exact .inl ((hrw.elsewhere _ ha).trans hT)
  · cases hS
    exact hnodup

/-- A vector may be replaced by that of another object. -/
theorem Linked.hand {r r' : Registry μ} {a b : ℕ} {A B : Sync μ} (h : Linked r)
    (hA : r.sync a=some A) (hB : r.sync b=some B) (hheap : r'.heap=r.heap)
    (hrw : Rewrites r a (some ⟨A.registered,B.conns⟩) r') : Linked r' := by
  refine ⟨fun c hl => ?_,hrw.forall_sync h.addrs fun S hS => ?_⟩
  · have hlocks : r.locks c=true := by
      rcases locks_of_rewrites hrw hl with ⟨S,hS,hmem⟩|hw
      · cases hS
        exact (locks_iff r c).mpr ⟨b,B,hB,hmem⟩
      · exact locks_of_locksWithout hw
    obtain ⟨conn,T,hc,hT,hnode⟩ := h.designates c hlocks
    by_cases ha : conn.registered=a
    · obtain rfl : A=T := Option.some.inj (hA.symm.trans (ha ▸ hT))
      exact ⟨conn,⟨A.registered,B.conns⟩,hheap ▸ hc,ha ▸ hrw.here,hnode⟩
    · exact ⟨conn,T,hheap ▸ hc,(hrw.elsewhere _ ha).trans hT,hnode⟩
  · cases hS
    exact h.addrs a A hA

/-- A connection which is not being disconnected designates its node exactly when
it does among the settled ones. -/
theorem Designates.of_settled {busy : List ℕ} {r : Registry μ} {c : ℕ} (hc : c∉busy)
    (h : Designates (settleRegistry busy r) c) : Designates r c := by
  obtain ⟨conn,S,hconn,hS,hnode⟩ := h
  change (settleHeap busy r.heap)[c]?=some conn at hconn
  simp only [getElem?_settleHeap,if_neg hc,Option.map_id'] at hconn
  exact ⟨conn,S,hconn,hS,hnode⟩

/-- A connected connection which designates its node can be disconnected, and
exactly one node disappears, from a living list. -/
theorem Designates.disconnect {r : Registry μ} {c : ℕ} {conn : InternalConnection μ}
    {S : Sync μ} (hl : r.locks c=true) (hc : r.heap[c]?=some conn)
    (hS : r.sync conn.registered=some S) (hflag : conn.connected=true)
    (hnode : ⟨conn.it,conn.method,c⟩∈S.registered) :
    ∃ r' S',r.disconnect c=some r' ∧ r'.sync conn.registered=some S' ∧
      S.registered.length=S'.registered.length+1 := by
  have hit : conn.it∈S.addrs := List.mem_map_of_mem (f := Node.addr) hnode
  have hd : r.disconnect c=some ⟨r.syncs.set conn.registered (some
      {S with registered := S.registered.eraseP fun n => n.addr=conn.it}),
      r.heap.set c {conn with connected := false}⟩ := by
    simp only [Registry.disconnect,hl,if_true,Registry.disconnectConn,hc,hflag,hS,
      Option.bind_some,Sync.erase,if_pos hit]
  refine ⟨_,_,hd,(rewrites_set hS _ _).here,?_⟩
  have hlen := List.length_eraseP_of_mem (p := fun n : Node μ => decide (n.addr=conn.it))
    hnode (decide_eq_true rfl)
  have hpos := List.length_pos_of_mem hnode
  change S.registered.length=(S.registered.eraseP fun n => n.addr=conn.it).length+1
  omega

/-- An operation apart from those in their middle is regular while lockable handles
are safe. -/
theorem Apart.regular {s : Scene μ} {a : ConnectionObjects.Act η σ φ δ} (h : Apart s a)
    (hlinked : Linked s.settled.registry) : Regular s a := by
  refine ⟨h.1,?_⟩
  cases hc : handle s.world a with
  | none => rfl
  | some c =>
    rw [Option.any_some,Scene.lost]
    have hbusy := h.2 c hc
    cases hl : s.world.registry.locks c with
    | false => exact Bool.false_and _
    | true =>
      obtain ⟨conn,S,hconn,hS,hnode⟩ := (hlinked.designates c hl).of_settled hbusy
      have hsome : (s.world.registry.disconnect c).isNone=false := by
        cases hflag : conn.connected with
        | true =>
          obtain ⟨r,-,hr,-⟩ := Designates.disconnect hl hconn hS hflag (hnode hflag)
          rw [hr]
          rfl
        | false =>
          rw [disconnect_lowered hconn hflag]
          rfl
      rw [hsome,decide_eq_false hbusy]
      rfl

/-- What holds of every moment of an admitted run. -/
structure Safe (s : Scene (Method η σ φ δ)) : Prop where
  /-- Nothing undefined happened. -/
  fault : s.fault=none
  /-- Operations in their middle can go on. -/
  underway : s.Underway
  /-- Handles are safe, also before the flags are lowered. -/
  linked : Linked s.settled.registry

/-- An admitted step is no fault. -/
theorem Safe.effect {s s' : Scene (Method η σ φ δ)} {act : Act η σ φ δ} (h : Safe s)
    (hok : Keeps s act) (hn : next s act=some s') : Effect s act s' ∧ s'.fault=none := by
  have hregular : ∀ a,act.operation=some a → Regular s a := by
    intro a ha
    cases act with
    | whole b =>
      cases ha
      exact hok.1.regular h.linked
    | begins b =>
      cases ha
      exact hok.1.regular h.linked
    | ends => cases ha
  rcases next_effect h.underway hn with ⟨a,f,ha,hnot,-⟩|heffect
  · exact False.elim (hnot (hregular a ha))
  · exact ⟨heffect,(fault_of_regular hn hregular).trans h.fault⟩

/-- Every admitted step keeps handles safe. -/
theorem safe_step {s s' : Scene (Method η σ φ δ)} {act : Act η σ φ δ} (h : Safe s)
    (hok : Keeps s act) (hn : next s act=some s') : Safe s' := by
  obtain ⟨heffect,hfault⟩ := h.effect hok hn
  refine ⟨hfault,underway_step h.underway hn hfault,?_⟩
  cases heffect with
  | whole a _ _ hnext _ => exact linked_step h.linked hok.2 hnext
  | unlinks a c _ _ hc _ hnext _ =>
    refine linked_step h.linked ?_ hnext
    cases a with
    | disconnect d => trivial
    | destroy o => trivial
    | _ => cases hc
  | copies a b addrs A B _ _ hA _ hlen hnodup hheap hrw _ =>
    refine h.linked.renew hok.2 hA ?_ hheap hrw
    rw [copyNodes_addrs hlen]
    exact hnodup
  | clears a b A B _ _ hA _ hheap hrw _ =>
    refine h.linked.renew hok.2 hA ?_ hheap hrw
    exact List.nodup_nil
  | lowers c _ _ hsame =>
    rw [hsame]
    exact h.linked
  | assigns a b A B _ _ hA hB hheap hrw => exact h.linked.hand hA hB hheap hrw
  | moves a b _ hpending hnext =>
    have hrest : KeepsLists s.settled (.moveAssignSync a b) :=
      hok (.moveAssigning a b) (by rw [hpending]; rfl)
    exact linked_step h.linked hrest hnext

/-- Handles are safe along every admitted run. -/
theorem safe_of_reaches {acts : List (Act η σ φ δ)} {s : Scene (Method η σ φ δ)}
    (h : Reaches next Keeps .start acts s) : Safe s :=
  h.invariant ⟨rfl,fun _ hp => (nomatch hp),linked_start⟩ fun hi hok hn => safe_step hi hok hn

/-- The step performs an operation which may disconnect. -/
def Disconnects (act : Act η σ φ δ) : Prop := ∃ a,act.operation=some a ∧ a.Disconnects

/-- Without disconnects every flag stays raised, and none is about to be lowered. -/
theorem connected_of_run {acts : List (Act η σ φ δ)} {s : Scene (Method η σ φ δ)}
    (h : Reaches next Keeps .start acts s) (hacts : ∀ a∈acts,¬Disconnects a) :
    ∀ conn∈s.settled.registry.heap,conn.connected=true := by
  induction h with
  | start => exact fun _ h => False.elim (List.not_mem_nil h)
  | step act hrun hok hn ih =>
    have hbefore := ih fun a ha => hacts a (List.mem_append_left _ ha)
    have hact := hacts act (List.mem_append_right _ List.mem_cons_self)
    have hperformed : ∀ {w w' : World (Method η σ φ δ)} {a},¬a.Disconnects →
        (∀ conn∈w.registry.heap,conn.connected=true) → ConnectionObjects.next w a=some w' →
        ∀ conn∈w'.registry.heap,conn.connected=true := by
      intro w w' a hno hall hnext
      rcases heap_effect hnext with ⟨-,hheap⟩|⟨k,addr,method,-,hheap⟩|⟨c,conn,-,hd,-⟩
      · rw [hheap]
        exact hall
      · rw [hheap]
        refine List.forall_mem_append.mpr ⟨hall,List.forall_mem_singleton.mpr rfl⟩
      · exact False.elim (hno hd)
    cases ((safe_of_reaches hrun).effect hok hn).1 with
    | whole a _ _ hnext _ => exact hperformed (fun hd => hact ⟨a,rfl,hd⟩) hbefore hnext
    | unlinks a c _ _ _ _ hnext _ => exact hperformed (fun hd => hact ⟨a,rfl,hd⟩) hbefore hnext
    | copies _ _ _ _ _ _ _ _ _ _ _ hheap | clears _ _ _ _ _ _ _ _ hheap
    | assigns _ _ _ _ _ _ _ _ hheap =>
      rw [hheap]
      exact hbefore
    | lowers _ _ _ hsame =>
      rw [hsame]
      exact hbefore
    | moves a b _ _ hnext => exact hperformed (a := .moveAssignSync a b) id hbefore hnext

/-- In every run which destroys, overwrites or moves away no list under a
connection that stays lockable, and in which no destructor of a callable repeats
the disconnect it runs in or uses a list being assigned: every erase finds its
node. A handle which can be locked, also in the middle of an operation, yields a
connection that refers to the list of a living `sync`; while it is connected and
not just being disconnected, its iterator designates its own node of that list,
and disconnecting erases exactly one node of it; and it is connected unless the
run disconnected. -/
theorem locked_handle_safe {acts : List (Act η σ φ δ)} {s : Scene (Method η σ φ δ)}
    (h : Reaches next Keeps .start acts s) :
    s.fault=none ∧ ∀ c,s.world.registry.locks c=true →
      ∃ conn S,s.world.registry.heap[c]?=some conn ∧
        s.world.registry.sync conn.registered=some S ∧
        (conn.connected=true → c∉disconnecting s.pending →
          ⟨conn.it,conn.method,c⟩∈S.registered ∧
          ∃ r' S',s.world.registry.disconnect c=some r' ∧ r'.sync conn.registered=some S' ∧
            S.registered.length=S'.registered.length+1) ∧
        ((∀ a∈acts,¬Disconnects a) → conn.connected=true ∧ c∉disconnecting s.pending) := by
  have hsafe := safe_of_reaches h
  refine ⟨hsafe.fault,fun c hl => ?_⟩
  obtain ⟨settled,S,hsettled,hS,hnode⟩ := hsafe.linked.designates c hl
  have hget := hsettled
  change (settleHeap _ s.world.registry.heap)[c]?=some settled at hget
  rw [getElem?_settleHeap] at hget
  obtain ⟨conn,hc,hflags⟩ := Option.map_eq_some_iff.mp hget
  have hregistered : settled.registered=conn.registered := by
    rw [←hflags]
    split <;> rfl
  refine ⟨conn,S,hc,hregistered ▸ hS,fun hflag hbusy => ?_,fun hacts => ?_⟩
  · rw [if_neg hbusy] at hflags
    subst hflags
    exact ⟨hnode hflag,Designates.disconnect hl hc hS hflag (hnode hflag)⟩
  · have hflag := connected_of_run h hacts settled (List.mem_of_getElem? hsettled)
    have hbusy : c∉disconnecting s.pending := by
      intro hbusy
      rw [if_pos hbusy] at hflags
      rw [←hflags] at hflag
      cases hflag
    rw [if_neg hbusy] at hflags
    exact ⟨hflags ▸ hflag,hbusy⟩

/-- A `sync` with two handlers is copied and the copy destroyed. The callable of
the second handler connects a third one while it is destroyed. -/
def copiedRun : List (Act ℕ ℕ ℕ ℕ) :=
  [.whole .create,.whole (.connect 0 100 7),.whole (.connect 0 101 8),
    .whole (.copySync 0 [200,201]),.whole (.destroySync 1),.begins (.disconnect 1),
    .whole (.connect 0 102 9),.ends]

/-- The handle of the first handler designates it and can be disconnected. -/
theorem locked_handle_safe_copied :
    ∃ s,Reaches next Keeps .start copiedRun s ∧ s.fault=none ∧
      s.world.registry.locks 0=true ∧ ∃ conn S,s.world.registry.heap[0]?=some conn ∧
        s.world.registry.sync conn.registered=some S ∧ ⟨conn.it,conn.method,0⟩∈S.registered ∧
        (s.world.registry.disconnect 0).isSome=true := by
  obtain ⟨s,hs,hseen⟩ := reaches_of_replay next Keeps .start copiedRun
    (fun s => (s.world.registry.locks 0,
      s.world.registry.heap[0]?.map InternalConnection.connected,s.pending))
    (true,some true,[]) (by decide)
  simp only [Prod.mk.injEq] at hseen
  obtain ⟨hl,hflag,hpending⟩ := hseen
  obtain ⟨hfault,hsafe⟩ := locked_handle_safe hs
  obtain ⟨conn,S,hc,hS,hdesignates,-⟩ := hsafe 0 hl
  rw [hc,Option.map_some,Option.some.injEq] at hflag
  have hbusy : 0∉disconnecting s.pending := by
    rw [hpending]
    exact List.not_mem_nil
  obtain ⟨hnode,r,-,hr,-⟩ := hdesignates hflag hbusy
  exact ⟨s,hs,hfault,hl,conn,S,hc,hS,hnode,by rw [hr]; rfl⟩

/-- A `sync` with one handler is copied and the original destroyed. -/
def outlivedRun : List (Act ℕ ℕ ℕ ℕ) :=
  [.whole .create,.whole (.connect 0 100 7),.whole (.copySync 0 [200]),.whole (.destroySync 0)]

/-- A `sync` with one handler is moved. -/
def movedRun : List (Act ℕ ℕ ℕ ℕ) :=
  [.whole .create,.whole (.connect 0 100 7),.whole (.moveSync 0)]

/-- Another `sync` is assigned to one with a handler, whose callable is destroyed. -/
def assignedRun : List (Act ℕ ℕ ℕ ℕ) :=
  [.whole .create,.whole .create,.whole (.connect 0 100 7),.begins (.copyAssignSync 0 1 [])]

/-- A callable owns the connection object of its own subscription, which is
destroyed with it when the handler is disconnected. -/
def ownedRun : List (Act ℕ ℕ ℕ ℕ) :=
  [.whole .create,.whole (.connect 0 100 7),.whole (.construct (some 0)),
    .begins (.disconnect 0),.whole (.destroy 0)]

/-- When a copy outlives the `sync` it was made of, the handle still locks, its
connection refers to the list of a dead `sync`, and disconnecting is undefined.
After a move the handle locks too, while its connection refers to the emptied
list; so it does in the middle of an assignment, when the old callables are being
destroyed. A callable which owns its own connection object is erased twice. -/
theorem copy_outlives_list :
    (∃ s,Reaches next Unrestricted .start outlivedRun s ∧ s.world.registry.locks 0=true ∧
      s.world.registry.sync 0=none ∧ s.world.registry.disconnect 0=none ∧
      ¬Designates s.world.registry 0) ∧
    (∃ s,Reaches next Unrestricted .start movedRun s ∧ s.world.registry.locks 0=true ∧
      s.world.registry.disconnect 0=none ∧ ¬Designates s.world.registry 0) ∧
    (∃ s,Reaches next Unrestricted .start assignedRun s ∧ s.world.registry.locks 0=true ∧
      s.world.registry.disconnect 0=none ∧ ¬Designates s.world.registry 0) ∧
    ∃ s,Reaches next Unrestricted .start ownedRun s ∧ s.fault=some .noNode := by
  refine ⟨?_,?_,?_,reaches_of_replay next Unrestricted .start ownedRun Scene.fault
    (some .noNode) (by decide)⟩
  · obtain ⟨s,hs,hseen⟩ := reaches_of_replay next Unrestricted .start outlivedRun
      (fun s => s.world.registry)
      ⟨[none,some ⟨[⟨200,.functor 7,0⟩],[0]⟩],[⟨100,0,true,.functor 7⟩]⟩ (by decide)
    refine ⟨s,hs,?_⟩
    rw [hseen]
    refine ⟨rfl,rfl,rfl,?_⟩
    rintro ⟨conn,S,hc,hS,-⟩
    cases hc
    cases hS
  · obtain ⟨s,hs,hseen⟩ := reaches_of_replay next Unrestricted .start movedRun
      (fun s => s.world.registry)
      ⟨[some Sync.fresh,some ⟨[⟨100,.functor 7,0⟩],[0]⟩],[⟨100,0,true,.functor 7⟩]⟩ (by decide)
    refine ⟨s,hs,?_⟩
    rw [hseen]
    refine ⟨rfl,rfl,?_⟩
    rintro ⟨conn,S,hc,hS,hnode⟩
    cases hc
    cases hS
    exact List.not_mem_nil (hnode rfl)
  · obtain ⟨s,hs,hseen⟩ := reaches_of_replay next Unrestricted .start assignedRun
      (fun s => s.world.registry)
      ⟨[some ⟨[],[0]⟩,some Sync.fresh],[⟨100,0,true,.functor 7⟩]⟩ (by decide)
    refine ⟨s,hs,?_⟩
    rw [hseen]
    refine ⟨rfl,rfl,?_⟩
    rintro ⟨conn,S,hc,hS,hnode⟩
    cases hc
    cases hS
    exact List.not_mem_nil (hnode rfl)

end Middles

end FastEventSystem.SyncLifetime
