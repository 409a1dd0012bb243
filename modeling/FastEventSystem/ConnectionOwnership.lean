import FastEventSystem.RegistryOrder

/-!
# Ownership of subscriptions by connection objects

A `connection` object should own the subscription whose handle it was given:
its destructor disconnects. The two assignment operators, however, overwrite
the held handle without disconnecting it. A subscription whose last holder is
overwritten stays registered with no owner. This is the only way to lose an
owner: while no assignment overwrites the last holder of a registered handler,
every registered handler which was ever owned has an owner.
-/

namespace FastEventSystem.ConnectionOwnership

open SlotTable SyncRegistry ConnectionObjects RegistryOrder GuardedRuns

variable {μ η σ φ δ : Type*}

/-- The handler of a connect call is still in the list of its channel. -/
def stillRegistered (r : Registry μ) (c : ℕ) : Bool :=
  match r.heap[c]? with
  | none => false
  | some conn =>
    match r.sync conn.registered with
    | none => false
    | some S => S.registered.any fun n => n.origin=c

/-- Some living `connection` object holds the handle. -/
def Held (w : World μ) (c : ℕ) : Prop := ∃ o,live w.objs o=some (some c)

/-- Number of living `connection` objects which hold the handle. -/
def holders (w : World μ) (c : ℕ) : ℕ := w.objs.count (some (some c))

/-- A handler whose handle was ever stored is registered only while held. -/
def Owned (w : World μ) : Prop :=
  ∀ c∈w.stored,stillRegistered w.registry c=true → Held w c

/-- Channels are neither copied nor moved. -/
def InScope : Act η σ φ δ → Prop
  | .copySync .. | .moveSync _ | .copyAssignSync .. | .moveAssignSync .. => False
  | _ => True

/-- The handle held by an object is not registered any more, or another object
holds it too. -/
def Spare (w : World μ) (o : ℕ) : Prop :=
  ∀ c∈(live w.objs o).join,stillRegistered w.registry c=true → 2 ≤ holders w c

instance (w : World μ) (o : ℕ) : Decidable (Spare w o) :=
  inferInstanceAs (Decidable (∀ c∈(live w.objs o).join,_))

/-- No assignment overwrites the last holder of a registered handler. -/
def Keeps (w : World (Method η σ φ δ)) : Act η σ φ δ → Prop
  | .copySync .. | .moveSync _ | .copyAssignSync .. | .moveAssignSync .. => False
  | .assign o handle => (live w.objs o).join=handle ∨ Spare w o
  | .moveAssign o p => o=p ∨ Spare w o
  | _ => True

instance (w : World (Method η σ φ δ)) : (a : Act η σ φ δ) → Decidable (Keeps w a)
  | .copySync .. | .moveSync _ | .copyAssignSync .. | .moveAssignSync .. =>
    inferInstanceAs (Decidable False)
  | .assign .. | .moveAssign .. => inferInstanceAs (Decidable (_ ∨ _))
  | .create | .destroySync _ | .connect .. | .connectBind .. | .connectSync ..
  | .connectFast .. | .connectDelay .. | .disconnect _ | .construct _
  | .moveConstruct _ | .destroy _ => inferInstanceAs (Decidable True)

/-- With every slot kept, the registered handlers are those of the connected
connections of living channels. -/
theorem stillRegistered_iff {r : Registry μ} (hkept : ∀ k,Kept r k) (c : ℕ) :
    stillRegistered r c=true ↔ ∃ conn S,r.heap[c]?=some conn ∧ conn.connected=true ∧
      r.sync conn.registered=some S := by
  unfold stillRegistered
  cases hc : r.heap[c]? with
  | none => simp only [Bool.false_eq_true,reduceCtorEq,false_and,exists_false]
  | some conn =>
    cases hS : r.sync conn.registered with
    | none =>
      simp only [Bool.false_eq_true,Option.some.injEq,exists_and_left,exists_eq_left',hS,
        reduceCtorEq,exists_false,and_false]
    | some S =>
      simp only [hS,List.any_eq_true,decide_eq_true_eq]
      constructor
      · rintro ⟨n,hn,horigin⟩
        rw [(hkept _).registered S hS] at hn
        obtain ⟨conn',hc',hflag,-⟩ := mem_connectedNodes.mp hn
        rw [horigin,hc] at hc'
        cases hc'
        exact ⟨conn,S,rfl,hflag,hS⟩
      · rintro ⟨conn',S',hc',hflag,hS'⟩
        cases hc'
        exact ⟨_,((hkept _).own_node hS hc rfl hflag).1,rfl⟩

/-- Some living object other than the given one holds the handle. -/
def HeldElsewhere (w : World μ) (o c : ℕ) : Prop := ∃ o',o'≠o ∧ live w.objs o'=some (some c)

/-- Constructing from a handle adds a holder. -/
theorem held_construct (w : World μ) (handle : Option ℕ) (stored : List ℕ) (c : ℕ) :
    Held {w with objs := w.objs++[some handle],stored := stored} c ↔
      handle=some c ∨ Held w c := by
  constructor
  · rintro ⟨o,ho⟩
    by_cases hnew : o=w.objs.length
    · subst hnew
      rw [live_append_self,Option.some.injEq] at ho
      exact .inl ho
    · rw [live_append_of_ne _ _ hnew] at ho
      exact .inr ⟨o,ho⟩
  · rintro (rfl|⟨o,ho⟩)
    · exact ⟨w.objs.length,live_append_self _ _⟩
    · have hlt := lt_of_live ho
      exact ⟨o,(live_append_of_ne _ _ (by omega)).trans ho⟩

/-- Assigning a handle replaces what the object held. -/
theorem held_assign {w : World μ} {o : ℕ} {held : Option ℕ} (ho : live w.objs o=some held)
    (handle : Option ℕ) (stored : List ℕ) (c : ℕ) :
    Held {w with objs := w.objs.set o (some handle),stored := stored} c ↔
      handle=some c ∨ HeldElsewhere w o c := by
  have hlt := lt_of_live ho
  constructor
  · rintro ⟨o',ho'⟩
    by_cases heq : o'=o
    · subst heq
      rw [live_set_self _ hlt,Option.some.injEq] at ho'
      exact .inl ho'
    · rw [live_set_of_ne _ _ heq] at ho'
      exact .inr ⟨o',heq,ho'⟩
  · rintro (rfl|⟨o',hne,ho'⟩)
    · exact ⟨o,live_set_self _ hlt⟩
    · exact ⟨o',(live_set_of_ne _ _ hne).trans ho'⟩

/-- Move-constructing keeps the holders, one of them under another name. -/
theorem held_moveConstruct {w : World μ} {p : ℕ} {handle : Option ℕ}
    (hp : live w.objs p=some handle) (c : ℕ) :
    Held {w with objs := w.objs.set p (some none)++[some handle]} c ↔ Held w c := by
  have hlt := lt_of_live hp
  have hlen : (w.objs.set p (some none)).length=w.objs.length := List.length_set
  constructor
  · rintro ⟨o,ho⟩
    by_cases hnew : o=(w.objs.set p (some none)).length
    · subst hnew
      rw [live_append_self,Option.some.injEq] at ho
      exact ⟨p,ho ▸ hp⟩
    · rw [live_append_of_ne _ _ hnew] at ho
      by_cases heq : o=p
      · rw [heq,live_set_self _ hlt] at ho
        cases ho
      · rw [live_set_of_ne _ _ heq] at ho
        exact ⟨o,ho⟩
  · rintro ⟨o,ho⟩
    by_cases heq : o=p
    · rw [heq,hp] at ho
      exact ⟨_,(live_append_self _ _).trans ho⟩
    · have hlto := lt_of_live ho
      refine ⟨o,(live_append_of_ne _ _ (by omega)).trans ?_⟩
      exact (live_set_of_ne _ _ heq).trans ho

/-- Move-assigning replaces what the object held and keeps all other holders,
one of them under another name. -/
theorem held_moveAssign {w : World μ} {o p : ℕ} {held handle : Option ℕ} (hne : o≠p)
    (ho : live w.objs o=some held) (hp : live w.objs p=some handle) (c : ℕ) :
    Held {w with objs := (w.objs.set o (some handle)).set p (some none)} c ↔
      HeldElsewhere w o c := by
  have hlto := lt_of_live ho
  have hltp := lt_of_live hp
  have hlen : (w.objs.set o (some handle)).length=w.objs.length := List.length_set
  constructor
  · rintro ⟨o',ho'⟩
    by_cases heqp : o'=p
    · rw [heqp,live_set_self _ (by omega)] at ho'
      cases ho'
    · rw [live_set_of_ne _ _ heqp] at ho'
      by_cases heqo : o'=o
      · rw [heqo,live_set_self _ hlto] at ho'
        exact ⟨p,Ne.symm hne,hp.trans ho'⟩
      · rw [live_set_of_ne _ _ heqo] at ho'
        exact ⟨o',heqo,ho'⟩
  · rintro ⟨o',hne',ho'⟩
    by_cases heqp : o'=p
    · rw [heqp,hp] at ho'
      refine ⟨o,(live_set_of_ne _ _ hne).trans ?_⟩
      exact (live_set_self _ hlto).trans ho'
    · refine ⟨o',(live_set_of_ne _ _ heqp).trans ?_⟩
      exact (live_set_of_ne _ _ hne').trans ho'

/-- A destroyed object holds nothing. -/
theorem held_destroy {w : World μ} {o : ℕ} {handle : Option ℕ} (ho : live w.objs o=some handle)
    (r : Registry μ) (c : ℕ) :
    Held {w with registry := r,objs := w.objs.set o none} c ↔ HeldElsewhere w o c := by
  have hlt := lt_of_live ho
  constructor
  · rintro ⟨o',ho'⟩
    by_cases heq : o'=o
    · rw [heq,live_set_self _ hlt] at ho'
      cases ho'
    · rw [live_set_of_ne _ _ heq] at ho'
      exact ⟨o',heq,ho'⟩
  · rintro ⟨o',hne,ho'⟩
    exact ⟨o',(live_set_of_ne _ _ hne).trans ho'⟩

/-- A holder is the given object or another one. -/
theorem held_iff {w : World μ} {o : ℕ} {held : Option ℕ} (ho : live w.objs o=some held) (c : ℕ) :
    Held w c ↔ held=some c ∨ HeldElsewhere w o c := by
  constructor
  · rintro ⟨o',ho'⟩
    by_cases heq : o'=o
    · rw [heq,ho,Option.some.injEq] at ho'
      exact .inl ho'
    · exact .inr ⟨o',heq,ho'⟩
  · rintro (rfl|⟨o',-,ho'⟩)
    · exact ⟨o,ho⟩
    · exact ⟨o',ho'⟩

/-- The handle of an object is spare when another object holds it too. -/
theorem spare_iff {w : World μ} {o : ℕ} {held : Option ℕ} (ho : live w.objs o=some held) :
    Spare w o ↔ ∀ c,held=some c → stillRegistered w.registry c=true → HeldElsewhere w o c := by
  unfold Spare holders
  rw [ho,Option.join_some]
  refine forall_congr' fun c => ?_
  rw [Option.mem_def]
  refine imp_congr_right fun hc => imp_congr_right fun _ => ?_
  exact two_le_count_iff (hc ▸ ho)

/-- What ownership needs to know about the objects and the histories. -/
structure Tracked (w : World μ) : Prop where
  /-- Every channel is kept. -/
  kept : ∀ k,Kept w.registry k
  /-- Stored handles were returned by connect. -/
  known : ∀ c∈w.stored,c < w.registry.heap.length
  /-- Held handles were stored. -/
  held : ∀ c,Held w c → c∈w.stored

/-- A slot index read after a step was a slot index before, or is the new one. -/
theorem sync_of_create {r : Registry μ} {k : ℕ} {S : Sync μ} (hk : k < r.syncs.length)
    (h : r.create.sync k=some S) : r.sync k=some S := by
  have hrw : Rewrites r r.syncs.length (some Sync.fresh) r.create := rewrites_append r _
  rwa [hrw.elsewhere k (by omega)] at h

/-- Connecting registers no earlier handler. -/
theorem stillRegistered_of_connect {r r' : Registry μ} {k addr c : ℕ} {method : μ}
    (hkept : ∀ k,Kept r k) (h : r.connect k addr method=some r') (hc : c < r.heap.length)
    (hs : stillRegistered r' c=true) : stillRegistered r c=true := by
  have hkept' : ∀ k,Kept r' k := fun j => (hkept j).connect h
  obtain ⟨T,hT,-,hheap,hrw⟩ := connect_eq_some h
  obtain ⟨conn,S,hconn,hflag,hS⟩ := (stillRegistered_iff hkept' c).mp hs
  rw [hheap,List.getElem?_append_left hc] at hconn
  by_cases hj : conn.registered=k
  · exact (stillRegistered_iff hkept c).mpr ⟨conn,T,hconn,hflag,hj ▸ hT⟩
  · rw [hrw.elsewhere _ hj] at hS
    exact (stillRegistered_iff hkept c).mpr ⟨conn,S,hconn,hflag,hS⟩

/-- Disconnecting registers nothing, and unregisters its own handler. -/
theorem stillRegistered_of_disconnect {r r' : Registry μ} {c d : ℕ} (hkept : ∀ k,Kept r k)
    (h : r.disconnect d=some r') (hs : stillRegistered r' c=true) :
    stillRegistered r c=true ∧ c≠d := by
  have hkept' : ∀ k,Kept r' k := fun k => (hkept k).disconnect h
  obtain ⟨conn,S,hconn,hflag,hS⟩ := (stillRegistered_iff hkept' c).mp hs
  unfold Registry.disconnect at h
  split at h
  · obtain ⟨old,hd,⟨hlow,rfl⟩|⟨T,-,hT,-,hheap,hrw⟩⟩ := disconnectConn_eq_some h
    · refine ⟨hs,?_⟩
      rintro rfl
      rw [hd,Option.some.injEq] at hconn
      rw [←hconn,hlow] at hflag
      exact Bool.false_ne_true hflag
    · have hne : c≠d := by
        rintro rfl
        obtain ⟨hlt,-⟩ := List.getElem?_eq_some_iff.mp hd
        rw [hheap,List.getElem?_set_self hlt,Option.some.injEq] at hconn
        rw [←hconn] at hflag
        exact Bool.false_ne_true hflag
      rw [hheap,List.getElem?_set_ne (Ne.symm hne)] at hconn
      refine ⟨(stillRegistered_iff hkept c).mpr ?_,hne⟩
      by_cases hj : conn.registered=old.registered
      · exact ⟨conn,T,hconn,hflag,hj ▸ hT⟩
      · rw [hrw.elsewhere _ hj] at hS
        exact ⟨conn,S,hconn,hflag,hS⟩
  · rename_i hlocks
    cases h
    refine ⟨hs,?_⟩
    rintro rfl
    exact hlocks ((locks_iff r c).mpr ⟨_,S,hS,(hkept _).conns S hS c conn hconn rfl⟩)

/-- Destroying a channel registers nothing. -/
theorem stillRegistered_of_destroy {r r' : Registry μ} {k c : ℕ} (hkept : ∀ k,Kept r k)
    (hkept' : ∀ k,Kept r' k) (h : r.destroy k=some r') (hs : stillRegistered r' c=true) :
    stillRegistered r c=true := by
  obtain ⟨hheap,hrw⟩ := destroy_eq_some h
  obtain ⟨conn,S,hconn,hflag,hS⟩ := (stillRegistered_iff hkept' c).mp hs
  have hj : conn.registered≠k := by
    intro hj
    rw [hj,hrw.here] at hS
    cases hS
  rw [hheap] at hconn
  rw [hrw.elsewhere _ hj] at hS
  exact (stillRegistered_iff hkept c).mpr ⟨conn,S,hconn,hflag,hS⟩

/-- Creating a channel registers nothing. -/
theorem stillRegistered_of_create {r : Registry μ} {c : ℕ} (hkept : ∀ k,Kept r k)
    (hs : stillRegistered r.create c=true) : stillRegistered r c=true := by
  have hkept' : ∀ k,Kept r.create k := fun k => (hkept k).create
  obtain ⟨conn,S,hconn,hflag,hS⟩ := (stillRegistered_iff hkept' c).mp hs
  have hlt := (hkept 0).slots conn (List.mem_of_getElem? hconn)
  exact (stillRegistered_iff hkept c).mpr ⟨conn,S,hconn,hflag,sync_of_create hlt hS⟩

/-- The condition only admits operations of the scope. -/
theorem Keeps.inScope {w : World (Method η σ φ δ)} {a : Act η σ φ δ} (h : Keeps w a) :
    InScope a := by
  cases a <;> first | exact trivial | exact h

/-- Outside copies and moves of channels every slot stays put. -/
theorem InScope.staysPut {a : Act η σ φ δ} (h : InScope a) (k : ℕ)
    (w : World (Method η σ φ δ)) : StaysPut k w a := by
  cases a <;> first | exact trivial | exact False.elim h

/-- A returned handle is the number of a connection. -/
theorem lt_of_returned {w : World μ} {c : ℕ} (h : w.returned (some c)=true) :
    c < w.registry.heap.length := of_decide_eq_true h

/-- Handles are stored only when they were returned. -/
theorem known_of_stored {w : World μ} {handle : Option ℕ} (hi : Tracked w)
    (hret : w.returned handle=true) :
    ∀ c∈handle.toList++w.stored,c < w.registry.heap.length := by
  intro c hc
  rcases List.mem_append.mp hc with hc|hc
  · rw [Option.mem_toList.mp hc] at hret
    exact lt_of_returned hret
  · exact hi.known c hc

/-- Every operation of the scope keeps the histories faithful. -/
theorem tracked_step {w w' : World (Method η σ φ δ)} {a : Act η σ φ δ} (hi : Tracked w)
    (ha : InScope a) (h : next w a=some w') : Tracked w' := by
  have hkept : ∀ k,Kept w'.registry k := fun k => kept_step (hi.kept k) (ha.staysPut k w) h
  have hlen : w.registry.heap.length ≤ w'.registry.heap.length := by
    have hheap := congrArg List.length (heap_step h)
    rw [List.length_map,List.length_append,List.length_map] at hheap
    omega
  have hknown : ∀ c∈w.stored,c < w'.registry.heap.length := by
    intro c hc
    have hlt := hi.known c hc
    omega
  have helsewhere : ∀ {o c},HeldElsewhere w o c → c∈w.stored :=
    fun ⟨o',_,ho'⟩ => hi.held _ ⟨o',ho'⟩
  cases next_effect h with
  | create | copySync | moveSync | copyAssignSync | moveAssignSync | destroySync | connect
  | disconnect | moveSelf => exact ⟨hkept,hknown,hi.held⟩
  | construct handle hret =>
    refine ⟨hkept,known_of_stored hi hret,fun c hc => ?_⟩
    rcases (held_construct w handle _ c).mp hc with hc|hc
    · exact List.mem_append_left _ (Option.mem_toList.mpr hc)
    · exact List.mem_append_right _ (hi.held c hc)
  | assign o held handle ho hret =>
    refine ⟨hkept,known_of_stored hi hret,fun c hc => ?_⟩
    rcases (held_assign ho handle _ c).mp hc with hc|hc
    · exact List.mem_append_left _ (Option.mem_toList.mpr hc)
    · exact List.mem_append_right _ (helsewhere hc)
  | moveConstruct p handle hp =>
    exact ⟨hkept,hknown,fun c hc => hi.held c ((held_moveConstruct hp c).mp hc)⟩
  | moveAssign o p held handle hne ho hp =>
    exact ⟨hkept,hknown,fun c hc => helsewhere ((held_moveAssign hne ho hp c).mp hc)⟩
  | destroy o handle r ho hr =>
    exact ⟨hkept,hknown,fun c hc => helsewhere ((held_destroy ho r c).mp hc)⟩

/-- Before the first operation nothing is stored. -/
theorem tracked_start : Tracked (World.start : World μ) where
  kept := kept_start
  known _ h := False.elim (List.not_mem_nil h)
  held _ h := nomatch h

/-- Assigning a handle keeps every handler owned exactly when it is the one held
before, or that one is not the last hold on its handler. -/
theorem owned_assign_iff {w : World μ} {o : ℕ} {held handle : Option ℕ} (hi : Tracked w)
    (hown : Owned w) (ho : live w.objs o=some held) :
    Owned {w with objs := w.objs.set o (some handle),stored := handle.toList++w.stored} ↔
      held=handle ∨ Spare w o := by
  rw [spare_iff ho]
  constructor
  · intro hown'
    by_cases heq : held=handle
    · exact .inl heq
    · refine .inr fun c hc hs => ?_
      have hstored : c∈w.stored := hi.held c ((held_iff ho c).mpr (.inl hc))
      rcases (held_assign ho handle _ c).mp
        (hown' c (List.mem_append_right _ hstored) hs) with hnew|helse
      · exact False.elim (heq (hc.trans hnew.symm))
      · exact helse
  · intro hok c hc hs
    refine (held_assign ho handle _ c).mpr ?_
    rcases List.mem_append.mp hc with hc|hc
    · exact .inl (Option.mem_toList.mp hc)
    · rcases (held_iff ho c).mp (hown c hc hs) with hheld|helse
      · rcases hok with heq|hspare
        · exact .inl (heq.symm.trans hheld)
        · exact .inr (hspare c hheld hs)
      · exact .inr helse

/-- Move-assigning from another object keeps every handler owned exactly when
the overwritten handle is not the last hold on its handler. -/
theorem owned_moveAssign_iff {w : World μ} {o p : ℕ} {held handle : Option ℕ} (hi : Tracked w)
    (hown : Owned w) (hne : o≠p) (ho : live w.objs o=some held)
    (hp : live w.objs p=some handle) :
    Owned {w with objs := (w.objs.set o (some handle)).set p (some none)} ↔ Spare w o := by
  rw [spare_iff ho]
  constructor
  · intro hown' c hc hs
    have hstored : c∈w.stored := hi.held c ((held_iff ho c).mpr (.inl hc))
    exact (held_moveAssign hne ho hp c).mp (hown' c hstored hs)
  · intro hspare c hc hs
    refine (held_moveAssign hne ho hp c).mpr ?_
    rcases (held_iff ho c).mp (hown c hc hs) with hheld|helse
    · exact hspare c hheld hs
    · exact helse

/-- In a tracked state with every handler owned, an operation of the scope
leaves every handler owned exactly when it overwrites no last holder. -/
theorem owned_step_iff {w w' : World (Method η σ φ δ)} {a : Act η σ φ δ} (hi : Tracked w)
    (hown : Owned w) (ha : InScope a) (h : next w a=some w') : Owned w' ↔ Keeps w a := by
  cases next_effect h with
  | create =>
    exact iff_of_true (fun c hc hs => hown c hc (stillRegistered_of_create hi.kept hs)) trivial
  | copySync | moveSync | copyAssignSync | moveAssignSync => exact False.elim ha
  | destroySync k r hr =>
    have hkept : ∀ k,Kept r k := (tracked_step hi ha h).kept
    exact iff_of_true (fun c hc hs =>
      hown c hc (stillRegistered_of_destroy hi.kept hkept hr hs)) trivial
  | connect _ k addr method r hconn hr =>
    refine iff_of_true (fun c hc hs => hown c hc ?_) ?_
    · exact stillRegistered_of_connect hi.kept hr (hi.known c hc) hs
    · cases a <;> first | exact trivial | cases hconn
  | disconnect d r hr =>
    exact iff_of_true (fun c hc hs =>
      hown c hc (stillRegistered_of_disconnect hi.kept hr hs).1) trivial
  | construct handle hret =>
    refine iff_of_true (fun c hc hs => (held_construct w handle _ c).mpr ?_) trivial
    rcases List.mem_append.mp hc with hc|hc
    · exact .inl (Option.mem_toList.mp hc)
    · exact .inr (hown c hc hs)
  | assign o held handle ho hret =>
    have hkeeps : Keeps w (.assign o handle) ↔ held=handle ∨ Spare w o := by
      rw [Keeps,ho,Option.join_some]
    rw [hkeeps]
    exact owned_assign_iff hi hown ho
  | moveConstruct p handle hp =>
    exact iff_of_true (fun c hc hs =>
      (held_moveConstruct hp c).mpr (hown c hc hs)) trivial
  | moveSelf o => exact iff_of_true hown (.inl rfl)
  | moveAssign o p held handle hne ho hp =>
    have hkeeps : Keeps w (.moveAssign o p) ↔ Spare w o := or_iff_right hne
    rw [hkeeps]
    exact owned_moveAssign_iff hi hown hne ho hp
  | destroy o handle r ho hr =>
    refine iff_of_true (fun c hc hs => (held_destroy ho r c).mpr ?_) trivial
    have hold : stillRegistered w.registry c=true ∧ handle≠some c := by
      cases handle with
      | none =>
        cases hr
        exact ⟨hs,fun heq => nomatch heq⟩
      | some d =>
        have hd := stillRegistered_of_disconnect hi.kept hr hs
        exact ⟨hd.1,fun heq => hd.2 (Option.some.inj heq).symm⟩
    rcases (held_iff ho c).mp (hown c hc hold.1) with hheld|helse
    · exact False.elim (hold.2 hheld)
    · exact helse

/-- In every run which overwrites no last holder, each handler whose handle was
ever stored in a `connection` object is registered only while a living object
holds its handle. From such a state the next operation keeps this exactly when
it too overwrites no last holder of a registered handler. -/
theorem ownership_exact {acts : List (Act η σ φ δ)} {w : World (Method η σ φ δ)}
    (h : Reaches next Keeps .start acts w) :
    Owned w ∧ ∀ a w',InScope a → next w a=some w' → (Owned w' ↔ Keeps w a) := by
  have hboth : Tracked w ∧ Owned w := by
    refine h.invariant (I := fun w => Tracked w ∧ Owned w) ?_ ?_
    · exact ⟨tracked_start,fun c hc => False.elim (List.not_mem_nil hc)⟩
    · intro w a w' hi hok hn
      exact ⟨tracked_step hi.1 hok.inScope hn,
        (owned_step_iff hi.1 hi.2 hok.inScope hn).mpr hok⟩
  exact ⟨hboth.2,fun a w' ha hn => owned_step_iff hboth.1 hboth.2 ha hn⟩

/-- A consumer connects, its `connection` member is moved to another object and
re-assigned by a second connect; then both objects are destroyed. -/
def transferredRun : List (Act ℕ ℕ ℕ ℕ) :=
  [.create,.construct none,.connectBind 0 100 1 2,.assign 0 (some 0),.moveConstruct 0,
    .connectBind 0 101 1 2,.assign 0 (some 1),.destroy 0,.destroy 1]

/-- Where the first handle was moved away before, re-assigning loses nothing,
and destroying the two objects leaves no handler behind. -/
theorem ownership_exact_transferred :
    ∃ w,Reaches next Keeps .start transferredRun w ∧ Owned w ∧ w.stored=[1,0] ∧
      w.registry.sync 0=some ⟨[],[0,1]⟩ := by
  obtain ⟨w,hw,hseen⟩ := reaches_of_replay next Keeps .start transferredRun
    (fun w => (w.stored,w.registry.sync 0)) ([1,0],some ⟨[],[0,1]⟩) (by decide)
  rw [Prod.mk.injEq] at hseen
  exact ⟨w,hw,(ownership_exact hw).1,hseen.1,hseen.2⟩

/-- A consumer connects twice through the same `connection` member and is
destroyed. -/
def reconnectRun : List (Act ℕ ℕ ℕ ℕ) :=
  [.create,.construct none,.connectBind 0 100 1 2,.assign 0 (some 0),.connectBind 0 101 1 2,
    .assign 0 (some 1),.destroy 0]

/-- The handler of the first connect call is still registered, although its
handle was stored and no `connection` object is alive. -/
theorem reconnect_leaves_handler :
    ∃ w,Reaches next Unrestricted .start reconnectRun w ∧ w.objs=[none] ∧ 0∈w.stored ∧
      w.registry.sync 0=some ⟨[⟨100,.bind 1 2,0⟩],[0,1]⟩ ∧ ¬Owned w := by
  obtain ⟨w,hw,hseen⟩ := reaches_of_replay next Unrestricted .start reconnectRun id
    ⟨⟨[some ⟨[⟨100,.bind 1 2,0⟩],[0,1]⟩],[⟨100,0,true,.bind 1 2⟩,⟨101,0,false,.bind 1 2⟩]⟩,
      [none],[1,0]⟩ (by decide)
  cases hseen
  have hmem : 0∈[1,0] := List.mem_cons_of_mem _ List.mem_cons_self
  refine ⟨_,hw,rfl,hmem,rfl,fun hown => ?_⟩
  obtain ⟨o,ho⟩ := hown 0 hmem rfl
  have hlt : o < 1 := lt_of_live ho
  have ho0 : o=0 := by omega
  subst ho0
  cases ho

end FastEventSystem.ConnectionOwnership
