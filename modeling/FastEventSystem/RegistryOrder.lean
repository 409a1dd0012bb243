import FastEventSystem.ConnectionObjects
import Mathlib.Data.List.Induction
import Mathlib.Data.List.Nodup

/-!
# The handler list is the list of connected connections

The connections ever made are kept in the order of their connect calls. The
list of a `sync` which is never assigned to and never moved away holds exactly
the callables of those connections which refer to it and are still connected,
in that order, each in the node its connection captured. This survives every
order of connects and of repeated disconnects through any copies of handles,
whatever happens to other `sync` objects.
-/

namespace FastEventSystem.RegistryOrder

open SlotTable SyncRegistry ConnectionObjects GuardedRuns

variable {μ η σ φ δ : Type*}

/-- The node which a connection still has in the list of a given `sync`. -/
def nodeAt (heap : List (InternalConnection μ)) (k c : ℕ) : Option (Node μ) :=
  match heap[c]? with
  | none => none
  | some conn =>
    if conn.connected=true ∧ conn.registered=k then some ⟨conn.it,conn.method,c⟩ else none

/-- The connections referring to one `sync` and still connected, by their
nodes, in the order of their connect calls. -/
def connectedNodes (heap : List (InternalConnection μ)) (k : ℕ) : List (Node μ) :=
  (List.range heap.length).filterMap (nodeAt heap k)

/-- Exactly the connected connections have a node. -/
theorem nodeAt_eq_some {heap : List (InternalConnection μ)} {k c : ℕ} {n : Node μ} :
    nodeAt heap k c=some n ↔ ∃ conn,heap[c]?=some conn ∧ conn.connected=true ∧
      conn.registered=k ∧ n=⟨conn.it,conn.method,c⟩ := by
  unfold nodeAt
  cases heap[c]? with
  | none => simp only [reduceCtorEq,false_and,exists_false]
  | some conn =>
    simp only [Option.ite_none_right_eq_some,Option.some.injEq,exists_eq_left',and_assoc]
    exact and_congr_right fun _ => and_congr_right fun _ => eq_comm

/-- A listed node is the node of the connection it stems from. -/
theorem mem_connectedNodes {heap : List (InternalConnection μ)} {k : ℕ} {n : Node μ} :
    n∈connectedNodes heap k ↔ ∃ conn,heap[n.origin]?=some conn ∧ conn.connected=true ∧
      conn.registered=k ∧ n=⟨conn.it,conn.method,n.origin⟩ := by
  rw [connectedNodes,List.mem_filterMap]
  constructor
  · rintro ⟨c,-,hc⟩
    obtain ⟨conn,hconn,hflag,hk,rfl⟩ := nodeAt_eq_some.mp hc
    exact ⟨conn,hconn,hflag,hk,rfl⟩
  · rintro ⟨conn,hconn,hflag,hk,hn⟩
    obtain ⟨hlt,-⟩ := List.getElem?_eq_some_iff.mp hconn
    exact ⟨n.origin,List.mem_range.mpr hlt,nodeAt_eq_some.mpr ⟨conn,hconn,hflag,hk,hn⟩⟩

/-- A new connection comes last. -/
theorem connectedNodes_append (heap : List (InternalConnection μ))
    (conn : InternalConnection μ) (k : ℕ) :
    connectedNodes (heap++[conn]) k=connectedNodes heap k++
      if conn.connected=true ∧ conn.registered=k then [⟨conn.it,conn.method,heap.length⟩]
      else [] := by
  have hold : (List.range heap.length).filterMap (nodeAt (heap++[conn]) k)=
      connectedNodes heap k := by
    refine List.filterMap_congr fun c hc => ?_
    have hlt : c < heap.length := List.mem_range.mp hc
    rw [nodeAt,nodeAt,List.getElem?_append_left hlt]
  have hnew : nodeAt (heap++[conn]) k heap.length=
      if conn.connected=true ∧ conn.registered=k then some ⟨conn.it,conn.method,heap.length⟩
      else none := by
    rw [nodeAt,List.getElem?_concat_length]
  have hlen : (heap++[conn]).length=heap.length+1 := List.length_append
  rw [connectedNodes,hlen,List.range_succ,List.filterMap_append,hold]
  congr 1
  split at hnew
  · rw [List.filterMap_cons_some hnew,List.filterMap_nil]
    rename_i hc
    rw [if_pos hc]
  · rw [List.filterMap_cons_none hnew,List.filterMap_nil]
    rename_i hc
    rw [if_neg hc]

/-- Lowering one flag takes that connection out and keeps all others. -/
theorem connectedNodes_lower {heap : List (InternalConnection μ)} {c : ℕ}
    {conn : InternalConnection μ} (hc : heap[c]?=some conn) (k : ℕ) :
    connectedNodes (heap.set c {conn with connected := false}) k=
      (connectedNodes heap k).filter fun n => n.origin≠c := by
  obtain ⟨hlt,-⟩ := List.getElem?_eq_some_iff.mp hc
  rw [connectedNodes,connectedNodes,List.length_set,List.filter_filterMap]
  refine List.filterMap_congr fun i _ => ?_
  by_cases hi : i=c
  · have hnone : nodeAt (heap.set c {conn with connected := false}) k i=none := by
      rw [hi,nodeAt,List.getElem?_set_self hlt]
      exact if_neg fun h => Bool.false_ne_true h.1
    rw [hnone]
    cases hn : nodeAt heap k i with
    | none => rfl
    | some n =>
      obtain ⟨conn',-,-,-,rfl⟩ := nodeAt_eq_some.mp hn
      simp only [hi,Option.filter_some,ne_eq,not_true_eq_false,decide_false,Bool.false_eq_true,
        if_false]
  · have hsame : nodeAt (heap.set c {conn with connected := false}) k i=nodeAt heap k i := by
      rw [nodeAt,nodeAt,List.getElem?_set_ne (Ne.symm hi)]
    rw [hsame]
    cases hn : nodeAt heap k i with
    | none => rfl
    | some n =>
      obtain ⟨conn',-,-,-,rfl⟩ := nodeAt_eq_some.mp hn
      simp only [Option.filter_some,ne_eq,hi,not_false_eq_true,decide_true,if_true]

/-- A disconnected connection, or one of another slot, has no listed node. -/
theorem connectedNodes_without {heap : List (InternalConnection μ)} {c k : ℕ}
    {conn : InternalConnection μ} (hc : heap[c]?=some conn)
    (hout : ¬(conn.connected=true ∧ conn.registered=k)) :
    ((connectedNodes heap k).filter fun n => n.origin≠c)=connectedNodes heap k := by
  refine List.filter_eq_self.mpr fun n hn => decide_eq_true fun horigin => ?_
  obtain ⟨conn',hc',hflag,hk,-⟩ := mem_connectedNodes.mp hn
  rw [horigin,hc,Option.some.injEq] at hc'
  rw [←hc'] at hflag hk
  exact hout ⟨hflag,hk⟩

/-- The callables of the listed nodes, without addresses and numbers. -/
theorem connectedNodes_methods (heap : List (InternalConnection μ)) (k : ℕ) :
    (connectedNodes heap k).map Node.method=
      (heap.filter fun conn => conn.connected=true ∧ conn.registered=k).map
        InternalConnection.method := by
  induction heap using List.reverseRecOn with
  | nil => rfl
  | append_singleton heap conn ih =>
    rw [connectedNodes_append,List.map_append,ih,List.filter_append,List.map_append]
    congr 1
    by_cases hc : conn.connected=true ∧ conn.registered=k
    · simp only [List.filter_cons,if_pos hc,decide_eq_true hc,if_true,List.filter_nil,
        List.map_cons,List.map_nil]
    · simp only [List.filter_cons,if_neg hc,decide_eq_false hc,Bool.false_eq_true,if_false,
        List.filter_nil,List.map_nil]

/-- Where a key determines the entry, erasing the first entry with a key drops
every entry with that key. -/
theorem eraseP_eq_filter {α : Type*} (key : α → ℕ) (xs : List α) (a : ℕ)
    (h : (xs.map key).Nodup) :
    (xs.eraseP fun x => key x=a)=xs.filter fun x => key x≠a := by
  induction xs with
  | nil => rfl
  | cons x xs ih =>
    rw [List.map_cons,List.nodup_cons] at h
    by_cases hx : key x=a
    · have hall : ∀ y∈xs,key y≠a := by
        intro y hy hya
        exact h.1 (List.mem_map.mpr ⟨y,hy,hya.trans hx.symm⟩)
      have hkeep : (xs.filter fun y => key y≠a)=xs :=
        List.filter_eq_self.mpr fun y hy => decide_eq_true (hall y hy)
      simp only [List.eraseP_cons,List.filter_cons,hx,ne_eq,not_true_eq_false,decide_true,
        decide_false,cond_true,Bool.false_eq_true,if_false]
      exact hkeep.symm
    · simp only [List.eraseP_cons,List.filter_cons,hx,ne_eq,not_false_eq_true,decide_true,
        decide_false,cond_false,if_true,ih h.2]

/-- What holds of one slot at every moment, as long as its object is neither
assigned to nor moved away. -/
structure Kept (r : Registry μ) (k : ℕ) : Prop where
  /-- Connections refer to slots which exist already. -/
  slots : ∀ conn∈r.heap,conn.registered < r.syncs.length
  /-- The list holds the connected connections in creation order. -/
  registered : ∀ S,r.sync k=some S → S.registered=connectedNodes r.heap k
  /-- No two nodes share an address. -/
  addrs : ∀ S,r.sync k=some S → S.addrs.Nodup
  /-- The vector keeps every connection which refers to the list. -/
  conns : ∀ S,r.sync k=some S → ∀ c conn,r.heap[c]?=some conn → conn.registered=k → c∈S.conns

/-- In a kept list a connected connection finds its own node, and no other
node, at its iterator. -/
theorem Kept.own_node {r : Registry μ} {k c : ℕ} {S : Sync μ} {conn : InternalConnection μ}
    (h : Kept r k) (hS : r.sync k=some S) (hc : r.heap[c]?=some conn)
    (hk : conn.registered=k) (hflag : conn.connected=true) :
    ⟨conn.it,conn.method,c⟩∈S.registered ∧
      ∀ n∈S.registered,(n.addr=conn.it ↔ n.origin=c) := by
  have hown : (⟨conn.it,conn.method,c⟩ : Node μ)∈S.registered := by
    rw [h.registered S hS]
    exact mem_connectedNodes.mpr ⟨conn,hc,hflag,hk,rfl⟩
  refine ⟨hown,fun n hn => ⟨fun haddr => ?_,fun horigin => ?_⟩⟩
  · have hsame := List.inj_on_of_nodup_map (h.addrs S hS) hn hown haddr
    rw [hsame]
  · rw [h.registered S hS] at hn
    obtain ⟨conn',hc',-,-,hn'⟩ := mem_connectedNodes.mp hn
    rw [horigin,hc,Option.some.injEq] at hc'
    rw [hn',hc']

/-- In a kept list the deleter removes the node of its own connection and
keeps all others in their order. -/
theorem Kept.eraseP_eq {r : Registry μ} {k c : ℕ} {S : Sync μ} {conn : InternalConnection μ}
    (h : Kept r k) (hS : r.sync k=some S) (hc : r.heap[c]?=some conn)
    (hk : conn.registered=k) (hflag : conn.connected=true) :
    (S.registered.eraseP fun n => n.addr=conn.it)=S.registered.filter fun n => n.origin≠c := by
  have hown := (h.own_node hS hc hk hflag).2
  rw [eraseP_eq_filter Node.addr S.registered conn.it (h.addrs S hS)]
  refine List.filter_congr fun n hn => ?_
  rw [decide_eq_decide]
  exact not_congr (hown n hn)

/-- A slot which keeps its object or loses it stays kept while the heap is the
same. -/
theorem Kept.frame {r r' : Registry μ} {k : ℕ} (h : Kept r k) (hheap : r'.heap=r.heap)
    (hgrows : r.syncs.length ≤ r'.syncs.length)
    (hk : r'.sync k=r.sync k ∨ r'.sync k=none) : Kept r' k := by
  have hold : ∀ S,r'.sync k=some S → r.sync k=some S := by
    intro S hS
    rcases hk with hk|hk
    · rwa [←hk]
    · rw [hk] at hS
      cases hS
  refine ⟨?_,?_,?_,?_⟩
  · intro conn hconn
    rw [hheap] at hconn
    have hlt := h.slots conn hconn
    omega
  · intro S hS
    rw [hheap]
    exact h.registered S (hold S hS)
  · exact fun S hS => h.addrs S (hold S hS)
  · intro S hS
    rw [hheap]
    exact h.conns S (hold S hS)

/-- A new slot holds a fresh object, to which nothing refers yet. -/
theorem Kept.create {r : Registry μ} {k : ℕ} (h : Kept r k) : Kept r.create k := by
  have hrw : Rewrites r r.syncs.length (some Sync.fresh) r.create := rewrites_append r _
  by_cases hk : k=r.syncs.length
  · have hnone : ∀ (c : ℕ) (conn : InternalConnection μ),r.heap[c]?=some conn →
        conn.registered≠k := by
      intro c conn hc heq
      have hlt := h.slots conn (List.mem_of_getElem? hc)
      omega
    have hhere : r.create.sync k=some Sync.fresh := hk ▸ hrw.here
    refine ⟨?_,?_,?_,?_⟩
    · intro conn hconn
      have hlt := h.slots conn hconn
      have hgrows := hrw.grows
      omega
    · intro S hS
      rw [hhere,Option.some.injEq] at hS
      rw [←hS]
      refine (List.eq_nil_iff_forall_not_mem.mpr fun n hn => ?_).symm
      obtain ⟨conn,hc,-,heq,-⟩ := mem_connectedNodes.mp hn
      exact hnone _ conn hc heq
    · intro S hS
      rw [hhere,Option.some.injEq] at hS
      rw [←hS]
      exact List.nodup_nil
    · intro S _ c conn hc heq
      exact False.elim (hnone c conn hc heq)
  · exact h.frame rfl hrw.grows (.inl (hrw.elsewhere k hk))

/-- Connecting extends the list at its end. -/
theorem Kept.connect {r r' : Registry μ} {k j addr : ℕ} {method : μ} (h : Kept r k)
    (hc : r.connect j addr method=some r') : Kept r' k := by
  obtain ⟨T,hT,hfree,hheap,hrw⟩ := connect_eq_some hc
  have hslots : ∀ conn : InternalConnection μ,conn∈r'.heap → conn.registered < r'.syncs.length := by
    intro conn hconn
    have hgrows := hrw.grows
    rw [hheap] at hconn
    rcases List.mem_append.mp hconn with hconn|hconn
    · have hlt := h.slots conn hconn
      omega
    · rw [List.mem_singleton.mp hconn]
      have hlt : j < r.syncs.length := lt_of_live hT
      change j < _
      omega
  by_cases hj : k=j
  · subst hj
    have hhere := hrw.here
    refine ⟨hslots,?_,?_,?_⟩
    · intro S hS
      rw [hhere,Option.some.injEq] at hS
      rw [←hS,hheap,connectedNodes_append,if_pos ⟨rfl,rfl⟩,h.registered T hT]
    · intro S hS
      rw [hhere,Option.some.injEq] at hS
      rw [←hS,Sync.addrs,List.map_append,List.map_singleton]
      refine List.Nodup.append (h.addrs T hT) (List.nodup_singleton _) ?_
      exact List.disjoint_singleton.mpr (not_mem_of_free hfree hT)
    · intro S hS c conn hconn heq
      rw [hhere,Option.some.injEq] at hS
      rw [←hS,List.mem_append]
      rw [hheap] at hconn
      rcases getElem?_concat_cases hconn with hconn|⟨hnew,-⟩
      · exact .inl (h.conns T hT c conn hconn heq)
      · exact .inr (List.mem_singleton.mpr hnew)
  · have hhere : r'.sync k=r.sync k := hrw.elsewhere k hj
    refine ⟨hslots,?_,?_,?_⟩
    · intro S hS
      rw [hhere] at hS
      rw [hheap,connectedNodes_append,if_neg fun hc => hj hc.2.symm,List.append_nil]
      exact h.registered S hS
    · intro S hS
      exact h.addrs S (hhere ▸ hS)
    · intro S hS c conn hconn heq
      rw [hhere] at hS
      rw [hheap] at hconn
      rcases getElem?_concat_cases hconn with hconn|⟨-,hnew⟩
      · exact h.conns S hS c conn hconn heq
      · rw [←hnew] at heq
        exact False.elim (hj heq.symm)

/-- Lowering a flag keeps every connection at its place and in its slot. -/
theorem getElem?_lower {heap : List (InternalConnection μ)} {c i : ℕ}
    {conn entry : InternalConnection μ} (hc : heap[c]?=some conn)
    (h : (heap.set c {conn with connected := false})[i]?=some entry) :
    ∃ old,heap[i]?=some old ∧ entry.registered=old.registered := by
  by_cases hi : c=i
  · subst hi
    obtain ⟨hlt,-⟩ := List.getElem?_eq_some_iff.mp hc
    rw [List.getElem?_set_self hlt,Option.some.injEq] at h
    exact ⟨conn,hc,by rw [←h]⟩
  · rw [List.getElem?_set_ne hi] at h
    exact ⟨entry,h,rfl⟩

/-- A disconnect, of whichever connection, keeps every kept slot. -/
theorem Kept.disconnectConn {r r' : Registry μ} {k c : ℕ} (h : Kept r k)
    (hd : r.disconnectConn c=some r') : Kept r' k := by
  obtain ⟨conn,hc,⟨-,rfl⟩|⟨T,hflag,hT,hit,hheap,hrw⟩⟩ := disconnectConn_eq_some hd
  · exact h
  have hslots : ∀ entry : InternalConnection μ,entry∈r'.heap →
      entry.registered < r'.syncs.length := by
    intro entry hentry
    rw [hheap] at hentry
    obtain ⟨i,hi⟩ := List.mem_iff_getElem?.mp hentry
    obtain ⟨old,hold,heq⟩ := getElem?_lower hc hi
    have hlt := h.slots old (List.mem_of_getElem? hold)
    have hgrows := hrw.grows
    omega
  have hentries : ∀ (i : ℕ) (entry : InternalConnection μ),r'.heap[i]?=some entry →
      ∃ old : InternalConnection μ,r.heap[i]?=some old ∧ entry.registered=old.registered := by
    intro i entry hi
    rw [hheap] at hi
    exact getElem?_lower hc hi
  by_cases hk : k=conn.registered
  · have hhere := hrw.here
    rw [←hk] at hhere hT
    have herase := h.eraseP_eq hT hc hk.symm hflag
    rw [herase] at hhere
    refine ⟨hslots,?_,?_,?_⟩
    · intro S hS
      rw [hhere,Option.some.injEq] at hS
      rw [←hS,hheap,connectedNodes_lower hc,h.registered T hT]
    · intro S hS
      rw [hhere,Option.some.injEq] at hS
      rw [←hS]
      exact (h.addrs T hT).sublist (List.Sublist.map _ List.filter_sublist)
    · intro S hS i entry hi heq
      rw [hhere,Option.some.injEq] at hS
      obtain ⟨old,hold,hreg⟩ := hentries i entry hi
      rw [←hS]
      exact h.conns T hT i old hold (hreg ▸ heq)
  · have hhere : r'.sync k=r.sync k := hrw.elsewhere k hk
    refine ⟨hslots,?_,?_,?_⟩
    · intro S hS
      rw [hhere] at hS
      rw [hheap,connectedNodes_lower hc,connectedNodes_without hc fun hout => hk hout.2.symm]
      exact h.registered S hS
    · intro S hS
      exact h.addrs S (hhere ▸ hS)
    · intro S hS i entry hi heq
      rw [hhere] at hS
      obtain ⟨old,hold,hreg⟩ := hentries i entry hi
      exact h.conns S hS i old hold (hreg ▸ heq)

/-- Disconnecting through a handle keeps every kept slot. -/
theorem Kept.disconnect {r r' : Registry μ} {k c : ℕ} (h : Kept r k)
    (hd : r.disconnect c=some r') : Kept r' k := by
  unfold Registry.disconnect at hd
  split at hd
  · exact h.disconnectConn hd
  · cases hd
    exact h

/-- So does the destructor of a `connection`. -/
theorem Kept.release {r r' : Registry μ} {k : ℕ} {handle : Option ℕ} (h : Kept r k)
    (hd : r.release handle=some r') : Kept r' k := by
  cases handle with
  | none =>
    cases hd
    exact h
  | some c => exact h.disconnect hd

/-- The `sync` in one slot is neither the result of a copy or a move nor moved
away. Everything else is admitted, also destroying it. -/
def StaysPut (k : ℕ) (w : World (Method η σ φ δ)) : Act η σ φ δ → Prop
  | .copySync _ _ => w.registry.syncs.length≠k
  | .moveSync b => w.registry.syncs.length≠k ∧ b≠k
  | .copyAssignSync a _ _ => a≠k
  | .moveAssignSync a b => a≠k ∧ b≠k
  | _ => True

instance (k : ℕ) (w : World (Method η σ φ δ)) : (a : Act η σ φ δ) → Decidable (StaysPut k w a)
  | .copySync .. | .copyAssignSync .. => inferInstanceAs (Decidable (_≠_))
  | .moveSync _ | .moveAssignSync .. => inferInstanceAs (Decidable (_ ∧ _))
  | .create | .destroySync _ | .connect .. | .connectBind .. | .connectSync ..
  | .connectFast .. | .connectDelay .. | .disconnect _ | .construct _ | .assign ..
  | .moveConstruct _ | .moveAssign .. | .destroy _ => inferInstanceAs (Decidable True)

/-- No operation disturbs a slot which stays put. -/
theorem kept_step {k : ℕ} {w w' : World (Method η σ φ δ)} {a : Act η σ φ δ}
    (hi : Kept w.registry k) (hok : StaysPut k w a) (h : next w a=some w') :
    Kept w'.registry k := by
  cases next_effect h with
  | create => exact hi.create
  | copySync b addrs r hr =>
    obtain ⟨B,-,-,-,hheap,hrw⟩ := copyConstruct_eq_some hr
    exact hi.frame hheap hrw.grows (.inl (hrw.elsewhere k (Ne.symm hok)))
  | moveSync b r hr =>
    obtain ⟨B,-,hheap,-,-,hother,hgrows⟩ := moveConstruct_eq_some hr
    exact hi.frame hheap hgrows (.inl (hother k (Ne.symm hok.2) (Ne.symm hok.1)))
  | copyAssignSync a b addrs r hr =>
    rcases copyAssign_eq_some hr with rfl|⟨A,B,-,-,-,-,-,hheap,hrw⟩
    · exact hi
    · exact hi.frame hheap hrw.grows (.inl (hrw.elsewhere k (Ne.symm hok)))
  | moveAssignSync a b r hr =>
    obtain ⟨A,B,-,-,-,hheap,-,-,hother,hgrows⟩ := moveAssign_eq_some hr
    exact hi.frame hheap hgrows (.inl (hother k (Ne.symm hok.1) (Ne.symm hok.2)))
  | destroySync j r hr =>
    obtain ⟨hheap,hrw⟩ := destroy_eq_some hr
    by_cases hj : k=j
    · exact hi.frame hheap hrw.grows (.inr (hj ▸ hrw.here))
    · exact hi.frame hheap hrw.grows (.inl (hrw.elsewhere k hj))
  | connect _ j addr method r _ hr => exact hi.connect hr
  | disconnect c r hr => exact hi.disconnect hr
  | construct handle hret => exact hi
  | assign o held handle ho hret => exact hi
  | moveConstruct p handle hp => exact hi
  | moveSelf o => exact hi
  | moveAssign o p held handle hne ho hp => exact hi
  | destroy o handle r ho hr => exact hi.release hr

/-- Nothing is registered yet. -/
theorem kept_start (k : ℕ) : Kept (World.start : World μ).registry k where
  slots _ h := False.elim (List.not_mem_nil h)
  registered _ h := nomatch h
  addrs _ h := nomatch h
  conns _ h := nomatch h

/-- A slot which stays put is kept in every run. -/
theorem kept_of_run {k : ℕ} {acts : List (Act η σ φ δ)} {w : World (Method η σ φ δ)}
    (h : Reaches next (StaysPut k) .start acts w) : Kept w.registry k :=
  h.invariant (I := fun w => Kept w.registry k) (kept_start k) fun hi hok hn =>
    kept_step hi hok hn

/-- Apart from the connect calls no operation makes a connection, and all
connections keep their callable and the list they refer to. -/
theorem heap_step {w w' : World (Method η σ φ δ)} {a : Act η σ φ δ} (h : next w a=some w') :
    (w'.registry.heap.map fun conn => (conn.registered,conn.method))=
      (w.registry.heap.map fun conn => (conn.registered,conn.method))++a.connects.toList := by
  rcases heap_effect h with ⟨ha,hheap⟩|⟨k,addr,method,ha,hheap⟩|⟨c,conn,ha,-,hc,hheap⟩
  · rw [ha,hheap]
    exact (List.append_nil _).symm
  · rw [ha,hheap,List.map_append]
    rfl
  · obtain ⟨hlt,rfl⟩ := List.getElem?_eq_some_iff.mp hc
    rw [ha,hheap,List.map_set]
    refine List.ext_getElem? fun i => ?_
    rw [Option.toList_none,List.append_nil]
    by_cases hi : c=i
    · subst hi
      rw [List.getElem?_set_self (by rwa [List.length_map]),List.getElem?_map,
        List.getElem?_eq_getElem hlt]
      rfl
    · rw [List.getElem?_set_ne hi]

/-- The connections are exactly the connect calls of the run, in order. -/
theorem heap_of_run {ok : World (Method η σ φ δ) → Act η σ φ δ → Prop}
    {acts : List (Act η σ φ δ)} {w : World (Method η σ φ δ)}
    (h : Reaches next ok .start acts w) :
    (w.registry.heap.map fun conn => (conn.registered,conn.method))=
      acts.filterMap Act.connects := by
  induction h with
  | start => rfl
  | step a _ _ hn ih =>
    rw [heap_step hn,ih,List.filterMap_append,List.filterMap_cons,List.filterMap_nil]
    cases a.connects <;> rfl

/-- Of a kept slot, a disconnected connection has no node. -/
theorem Kept.filter_disconnected {r : Registry μ} {k c : ℕ} {S : Sync μ}
    {conn : InternalConnection μ} (h : Kept r k) (hS : r.sync k=some S)
    (hc : r.heap[c]?=some conn) (hflag : conn.connected=false) :
    (S.registered.filter fun n => n.origin≠c)=S.registered := by
  rw [h.registered S hS]
  refine connectedNodes_without hc fun hout => ?_
  rw [hflag] at hout
  exact Bool.false_ne_true hout.1

/-- A lowered flag makes a disconnect do nothing. -/
theorem disconnect_lowered {r : Registry μ} {c : ℕ} {conn : InternalConnection μ}
    (hc : r.heap[c]?=some conn) (hflag : conn.connected=false) : r.disconnect c=some r := by
  have hconn : r.disconnectConn c=some r := by
    simp only [Registry.disconnectConn,hc,hflag,Bool.false_eq_true,if_false]
  rw [Registry.disconnect,hconn,ite_self]

/-- Disconnecting a connection of a kept slot is always possible and removes
at most its own node. -/
theorem Kept.disconnect_spec {r : Registry μ} {k c : ℕ} {S : Sync μ}
    {conn : InternalConnection μ} (h : Kept r k) (hS : r.sync k=some S)
    (hc : r.heap[c]?=some conn) (hk : conn.registered=k) :
    ∃ r',r.disconnect c=some r' ∧
      r'.sync k=some {S with registered := S.registered.filter fun n => n.origin≠c} ∧
      (∀ j,j≠k → r'.sync j=r.sync j) ∧ (conn.connected=false → r'=r) ∧
      r'.disconnect c=some r' := by
  cases hflag : conn.connected with
  | false =>
    have hd := disconnect_lowered hc hflag
    refine ⟨r,hd,?_,fun j _ => rfl,fun _ => rfl,hd⟩
    rw [h.filter_disconnected hS hc hflag]
    exact hS
  | true =>
    have hlocks : r.locks c=true := (locks_iff r c).mpr ⟨k,S,hS,h.conns S hS c conn hc hk⟩
    have hit : conn.it∈S.addrs :=
      List.mem_map_of_mem (f := Node.addr) (h.own_node hS hc hk hflag).1
    have hd : r.disconnect c=some ⟨r.syncs.set k (some
        {S with registered := S.registered.eraseP fun n => n.addr=conn.it}),
        r.heap.set c {conn with connected := false}⟩ := by
      simp only [Registry.disconnect,hlocks,if_true,Registry.disconnectConn,hc,hflag,hk,hS,
        Option.bind_some,Sync.erase,if_pos hit]
    obtain ⟨hlt,-⟩ := List.getElem?_eq_some_iff.mp hc
    have hrw := rewrites_set hS (some {S with registered := S.registered.filter fun n =>
      n.origin≠c}) (r.heap.set c {conn with connected := false})
    rw [h.eraseP_eq hS hc hk hflag] at hd
    refine ⟨_,hd,hrw.here,hrw.elsewhere,?_,?_⟩
    · intro hf
      cases hf
    · exact disconnect_lowered (List.getElem?_set_self hlt) rfl

/-- At most one node of a kept slot stems from a given connect call. -/
theorem Kept.length_le {r : Registry μ} {k c : ℕ} {S : Sync μ} {conn : InternalConnection μ}
    (h : Kept r k) (hS : r.sync k=some S) (hc : r.heap[c]?=some conn)
    (hk : conn.registered=k) :
    S.registered.length ≤ (S.registered.filter fun n => n.origin≠c).length+1 := by
  cases hflag : conn.connected with
  | false =>
    rw [h.filter_disconnected hS hc hflag]
    omega
  | true =>
    have hlen := List.length_eraseP (l := S.registered) (p := fun n => n.addr=conn.it)
    rw [h.eraseP_eq hS hc hk hflag] at hlen
    rw [hlen]
    split_ifs <;> omega

/-- In every run in which one `sync` stays put: its list holds the callables
of the connect calls made on it so far, in their order and without those whose
connection was disconnected; each connected iterator designates its own node
and only that; and a disconnect through any handle is possible, removes at most
the one node and leaves all others in their order, a repeated one changing
nothing. -/
theorem registered_in_connect_order (k : ℕ) {acts : List (Act η σ φ δ)}
    {w : World (Method η σ φ δ)} {S : Sync (Method η σ φ δ)}
    (h : Reaches next (StaysPut k) .start acts w) (hS : w.registry.sync k=some S) :
    (w.registry.heap.map fun conn => (conn.registered,conn.method))=
        acts.filterMap Act.connects ∧
      S.registered.map Node.method=
        (w.registry.heap.filter fun conn => conn.connected=true ∧ conn.registered=k).map
          InternalConnection.method ∧
      S.addrs.Nodup ∧
      ∀ c conn,w.registry.heap[c]?=some conn → conn.registered=k →
        (conn.connected=true → ⟨conn.it,conn.method,c⟩∈S.registered ∧
          ∀ n∈S.registered,(n.addr=conn.it ↔ n.origin=c)) ∧
        S.registered.length ≤ (S.registered.filter fun n => n.origin≠c).length+1 ∧
        ∃ r',w.registry.disconnect c=some r' ∧
          r'.sync k=some {S with registered := S.registered.filter fun n => n.origin≠c} ∧
          (∀ j,j≠k → r'.sync j=w.registry.sync j) ∧
          (conn.connected=false → r'=w.registry) ∧ r'.disconnect c=some r' := by
  have hkept := kept_of_run h
  refine ⟨heap_of_run h,?_,hkept.addrs S hS,fun c conn hc hk => ⟨fun hflag => ?_,?_,?_⟩⟩
  · rw [hkept.registered S hS,connectedNodes_methods]
  · exact hkept.own_node hS hc hk hflag
  · exact hkept.length_le hS hc hk
  · exact hkept.disconnect_spec hS hc hk

/-- All overloads on one `sync`, with a repeated disconnect, a destroyed
`connection` object and an address used twice. -/
def mixedRun : List (Act ℕ ℕ ℕ ℕ) :=
  [.create,.connect 0 100 7,.connectBind 0 101 1 2,.connectSync 0 102 5,.disconnect 1,
    .disconnect 1,.connectFast 0 101 3,.construct (some 0),.moveConstruct 0,.destroy 1,
    .connectDelay 0 100 4 20 6]

/-- After that run three handlers remain in the order of their connect calls,
and the handle of the reused address removes its own node only. -/
theorem registered_in_connect_order_mixed :
    ∃ w S,Reaches next (StaysPut 0) .start mixedRun w ∧ w.registry.sync 0=some S ∧
      S.registered.map Node.method=[.sync 5,.fast 3,.delay 4 20 6] ∧
      ∃ r',w.registry.disconnect 3=some r' ∧
        r'.sync 0=some {S with registered := S.registered.filter fun n => n.origin≠3} := by
  obtain ⟨w,hw,hseen⟩ := reaches_of_replay next (StaysPut 0) .start mixedRun
    (fun w => (w.registry.sync 0,w.registry.heap[3]?))
    (some ⟨[⟨102,.sync 5,2⟩,⟨101,.fast 3,3⟩,⟨100,.delay 4 20 6,4⟩],[0,1,2,3,4]⟩,
      some ⟨101,0,true,.fast 3⟩) (by decide)
  rw [Prod.mk.injEq] at hseen
  obtain ⟨-,-,-,hall⟩ := registered_in_connect_order 0 hw hseen.1
  obtain ⟨-,-,r',hd,hhere,-⟩ := hall 3 _ hseen.2 rfl
  exact ⟨w,_,hw,hseen.1,rfl,r',hd,hhere⟩

end FastEventSystem.RegistryOrder
