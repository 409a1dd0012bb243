import FastEventSystem.DispatchLoop

/-!
# Handlers which disconnect while they are being dispatched

As long as nobody disconnects a handler whose call is on the call stack, and no
destructor of a callable repeats the disconnect it runs in, every iterator held by a
loop of `operator()` designates a node of the list, whatever else the handlers
connect, disconnect or dispatch. A loop which comes to its end then called every
handler that stayed connected exactly once. Disconnecting a running handler is
exactly what makes an iterator dangle, and the loop advances it as soon as the
handler returns.
-/

namespace FastEventSystem.DispatchSafety

open SyncRegistry GuardedRuns CursorWalk DispatchLoop
open ErasedCallables (Scene Regular)

variable {μ η σ φ δ : Type*}

section Effects

/-- What one accepted step does. -/
inductive Effect (k : ℕ) (s : State (Method η σ φ δ)) :
    Act η σ φ δ → State (Method η σ φ δ) → Prop
  | edit (act : ErasedCallables.Act η σ φ δ) (stack : List Frame)
      (scene : Scene (Method η σ φ δ)) : s.pay act=some stack →
      ErasedCallables.next s.scene act=some scene →
      Effect k s (.edit act) {s with scene := scene,stack := stack}
  | operatorCall (work : ℕ) (stack : List Frame) (S : Sync (Method η σ φ δ)) :
      spend s.stack=some stack → s.scene.world.registry.sync k=some S →
      Effect k s (.operatorCall work) (s.iterate S stack none [] work S.registered.head?)
  | midway (work : ℕ) (S : Sync (Method η σ φ δ)) :
      s.scene.world.registry.sync k=some S → assigning k s.scene=true →
      Effect k s (.operatorCall work) {s with scene := {s.scene with fault := some .midway}}
  | advance (work : ℕ) (f : Frame) (rest : List Frame) (S : Sync (Method η σ φ δ)) :
      s.stack=f::rest → f.work=0 → s.scene.pending.length=f.base →
      s.scene.world.registry.sync k=some S → holds S f=true →
      Effect k s (.returns work) (s.iterate S rest (some f.origin) f.turns work
        (following (fun n => decide (n.addr=f.it)) S.registered))
  | dangling (work : ℕ) (f : Frame) (rest : List Frame) (S : Sync (Method η σ φ δ)) :
      s.stack=f::rest → f.work=0 → s.scene.world.registry.sync k=some S → holds S f≠true →
      Effect k s (.returns work) {s with fault := some .erased}
  | throws (f : Frame) (rest : List Frame) : s.stack=f::rest → s.scene.pending.length=f.base →
      Effect k s .throws {s with stack := rest}

/-- The steps have no other effects. -/
theorem next_effect {k : ℕ} {s s' : State (Method η σ φ δ)} {a : Act η σ φ δ}
    (h : next k s a=some s') : Effect k s a s' := by
  unfold next at h
  split at h
  · cases h
  cases a with
  | edit act =>
    obtain ⟨stack,hstack,h⟩ := Option.bind_eq_some_iff.mp h
    obtain ⟨scene,hscene,rfl⟩ := Option.map_eq_some_iff.mp h
    exact .edit act stack scene hstack hscene
  | operatorCall work =>
    obtain ⟨stack,hstack,h⟩ := Option.bind_eq_some_iff.mp h
    obtain ⟨S,hS,h⟩ := Option.map_eq_some_iff.mp h
    split at h
    · rename_i hassigning
      rw [←h]
      exact .midway work S hS hassigning
    · rw [←h]
      exact .operatorCall work stack S hstack hS
  | returns work =>
    simp only at h
    split at h
    · cases h
    · rename_i f rest hstack
      split at h
      · rename_i hdone
        obtain ⟨S,hS,h⟩ := Option.map_eq_some_iff.mp h
        split at h
        · rename_i hholds
          rw [←h]
          exact .advance work f rest S hstack hdone.1 hdone.2 hS hholds
        · rename_i hholds
          rw [←h]
          exact .dangling work f rest S hstack hdone.1 hS hholds
      · cases h
  | throws =>
    simp only at h
    split at h
    · cases h
    · rename_i f rest hstack
      split at h
      · rename_i hbase
        cases h
        exact .throws f rest hstack hbase
      · cases h

/-- An operation is counted on the innermost handler only. -/
theorem spend_eq_some {stack stack' : List Frame} (h : spend stack=some stack') :
    stack=[] ∧ stack'=[] ∨ ∃ f rest,stack=f::rest ∧ 0 < f.work ∧
      stack'={f with work := f.work-1}::rest := by
  cases stack with
  | nil =>
    cases h
    exact .inl ⟨rfl,rfl⟩
  | cons f rest =>
    rw [spend] at h
    split at h
    · cases h
    · rename_i hwork
      cases h
      exact .inr ⟨f,rest,rfl,Nat.pos_of_ne_zero hwork,rfl⟩

/-- An operation is counted on the innermost handler, its end changes no loop. -/
theorem pay_eq_some {s : State μ} {act : ErasedCallables.Act η σ φ δ} {stack : List Frame}
    (h : s.pay act=some stack) : act≠.ends ∧ spend s.stack=some stack ∨
      act=.ends ∧ stack=s.stack ∧ base s.stack < s.scene.pending.length := by
  cases act with
  | whole a => exact .inl ⟨nofun,h⟩
  | begins a => exact .inl ⟨nofun,h⟩
  | ends =>
    simp only [State.pay] at h
    split at h
    · rename_i hdue
      cases h
      exact .inr ⟨rfl,rfl,hdue⟩
    · cases h

end Effects

section Invariant

/-- The iterator of a loop designates a node of the list, and the loop has
walked up to it. -/
structure Valid (r : Registry μ) (k : ℕ) (f : Frame) : Prop where
  /-- The node is in the list. -/
  node : ∃ S,r.sync k=some S ∧ ∃ n∈S.registered,n.addr=f.it ∧ n.origin=f.origin
  /-- Its handler was chosen by the newest turn. -/
  arrived : Arrived f.turns (some f.origin)

/-- Handlers were called in the middle of no more operations than there are now. -/
def Nested : ℕ → List Frame → Prop
  | _,[] => True
  | depth,f::rest => f.base ≤ depth ∧ Nested f.base rest

/-- What holds at every moment of a spared run. -/
structure Sound (k : ℕ) (s : State μ) : Prop where
  /-- All lists are in connection order. -/
  numbered : AllNumbered s.scene.world.registry
  /-- All iterators are valid. -/
  frames : ∀ f∈s.stack,Valid s.scene.world.registry k f
  /-- Completed loops walked to the end. -/
  completed : ∀ r∈s.completed,Arrived r.turns none
  /-- Nothing undefined happened in a loop. -/
  fault : s.fault=none
  /-- Nor in an operation. -/
  regular : s.scene.fault=none
  /-- Operations in their middle can go on. -/
  underway : s.scene.Underway
  /-- They end before the handlers which began them return. -/
  nested : Nested s.scene.pending.length s.stack

/-- The nodes a valid iterator may designate are told apart by their address. -/
theorem Valid.holds_eq {r : Registry μ} {k : ℕ} {f : Frame} {S : Sync μ} (h : Valid r k f)
    (hS : r.sync k=some S) : holds S f=true := by
  obtain ⟨T,hT,n,hn,hnode⟩ := h.node
  obtain rfl : S=T := Option.some.inj (hS.symm.trans hT)
  exact List.any_eq_true.mpr ⟨n,hn,decide_eq_true hnode⟩

/-- Counting an operation changes no iterator and no turn. -/
theorem valid_spend {r : Registry μ} {k : ℕ} {stack stack' : List Frame}
    (h : spend stack=some stack') (hvalid : ∀ f∈stack,Valid r k f) :
    ∀ f∈stack',Valid r k f := by
  rcases spend_eq_some h with ⟨-,rfl⟩|⟨f,rest,rfl,-,rfl⟩
  · exact nofun
  · obtain ⟨hf,hrest⟩ := List.forall_mem_cons.mp hvalid
    exact List.forall_mem_cons.mpr ⟨⟨hf.node,hf.arrived⟩,hrest⟩

/-- More operations are in their middle. -/
theorem Nested.mono {n m : ℕ} {stack : List Frame} (h : Nested n stack) (hle : base stack ≤ m) :
    Nested m stack := by
  cases stack with
  | nil => trivial
  | cons f rest => exact ⟨hle,h.2⟩

/-- Counting an operation changes no depth. -/
theorem nested_spend {n : ℕ} {stack stack' : List Frame} (h : spend stack=some stack')
    (hnested : Nested n stack) : Nested n stack' ∧ base stack'=base stack := by
  rcases spend_eq_some h with ⟨rfl,rfl⟩|⟨f,rest,rfl,-,rfl⟩
  · exact ⟨trivial,rfl⟩
  · exact ⟨hnested,rfl⟩

/-- At a node of the list the end has a predecessor, and the handler is called. -/
theorem iterate_some {s : State μ} {S : Sync μ} {rest : List Frame} {after : Option ℕ}
    {turns : List (Turn ℕ)} {work : ℕ} {n : Node μ} (hn : n∈S.registered) :
    ∃ forwards,s.iterate S rest after turns work (some n)=
      {s with stack := ⟨n.addr,n.origin,forwards,work,
        s.scene.pending.length,⟨after,origins S,some n.origin⟩::turns⟩::rest} := by
  have hlast := List.getLast?_eq_some_getLast (List.ne_nil_of_mem hn)
  refine ⟨decide (n.addr=(S.registered.getLast (List.ne_nil_of_mem hn)).addr),?_⟩
  simp only [State.iterate,hlast]

/-- The head of the loop keeps everything, if its turn is one of a walk. -/
theorem sound_iterate {k : ℕ} {s : State μ} {S : Sync μ} {rest : List Frame}
    {after : Option ℕ} {turns : List (Turn ℕ)} {work : ℕ} {o : Option (Node μ)}
    (hs : Sound k s) (hS : s.scene.world.registry.sync k=some S)
    (hrest : ∀ f∈rest,Valid s.scene.world.registry k f)
    (hnested : Nested s.scene.pending.length rest) (hmem : ∀ n∈o,n∈S.registered)
    (harrived : Arrived (⟨after,origins S,o.map Node.origin⟩::turns) (o.map Node.origin)) :
    Sound k (s.iterate S rest after turns work o) := by
  cases o with
  | none =>
    exact ⟨hs.numbered,hrest,List.forall_mem_cons.mpr ⟨harrived,hs.completed⟩,hs.fault,
      hs.regular,hs.underway,hnested⟩
  | some n =>
    have hn : n∈S.registered := hmem n rfl
    obtain ⟨forwards,heq⟩ := iterate_some (s := s) hn
    rw [heq]
    exact ⟨hs.numbered,List.forall_mem_cons.mpr ⟨⟨⟨S,hS,n,hn,rfl,rfl⟩,harrived⟩,hrest⟩,
      hs.completed,hs.fault,hs.regular,hs.underway,Nat.le_refl _,hnested⟩

/-- A step which does not erase its node keeps an iterator valid. -/
theorem Valid.edit {k : ℕ} {s s' : Scene (Method η σ φ δ)} {act : ErasedCallables.Act η σ φ δ}
    {f : Frame} (h : Valid s.world.registry k f) (hremains : Remains k s act)
    (hne : erases s act≠some (k,f.it)) (ha : ErasedCallables.Effect s act s') :
    Valid s'.world.registry k f := by
  obtain ⟨S,hS,n,hn,haddr,horigin⟩ := h.node
  obtain ⟨S',hstep⟩ := scene_step hremains hS ha
  have hmem : n∈S'.registered := hstep.keeps n hn (haddr ▸ hne)
  exact ⟨⟨S',hstep.sync,n,hmem,haddr,horigin⟩,h.arrived⟩

/-- A regular step of the scene has an effect and is no fault. -/
theorem Sound.effect {k : ℕ} {s : State (Method η σ φ δ)} {scene : Scene (Method η σ φ δ)}
    {act : ErasedCallables.Act η σ φ δ} (hs : Sound k s)
    (hregular : ∀ a∈act.operation,Regular s.scene a)
    (h : ErasedCallables.next s.scene act=some scene) :
    ErasedCallables.Effect s.scene act scene ∧ scene.fault=none := by
  refine ⟨?_,(ErasedCallables.fault_of_regular h hregular).trans hs.regular⟩
  rcases ErasedCallables.next_effect hs.underway h with ⟨a,f,ha,hnot,-⟩|heffect
  · exact False.elim (hnot (hregular a ha))
  · exact heffect

/-- Every spared step keeps the invariant. -/
theorem sound_step {k : ℕ} {s s' : State (Method η σ φ δ)} {a : Act η σ φ δ}
    (hs : Sound k s) (hok : Spared k s a) (h : next k s a=some s') : Sound k s' := by
  cases next_effect h with
  | edit act stack scene hpay hscene =>
    obtain ⟨⟨hremains,hother⟩,hregular⟩ := hok
    obtain ⟨heffect,hfault⟩ := hs.effect hregular hscene
    have hframes : ∀ f∈s.stack,Valid scene.world.registry k f := fun f hf =>
      (hs.frames f hf).edit (hremains (List.ne_nil_of_mem hf)) (hother f hf) heffect
    have hunderway := ErasedCallables.underway_step hs.underway hscene hfault
    refine ⟨numbered_scene hs.numbered heffect,?_,hs.completed,hs.fault,hfault,hunderway,?_⟩
    · rcases pay_eq_some hpay with ⟨-,hspend⟩|⟨-,rfl,-⟩
      · exact valid_spend hspend hframes
      · exact hframes
    · have hdepth := ErasedCallables.pending_step heffect
      rcases pay_eq_some hpay with ⟨hgoes,hspend⟩|⟨rfl,rfl,hdue⟩
      · obtain ⟨hnested,hbase⟩ := nested_spend hspend hs.nested
        have hle : base stack ≤ s.scene.pending.length := by
          cases stack with
          | nil => exact Nat.zero_le _
          | cons f rest => exact hnested.1
        cases act with
        | whole a => exact hnested.mono (by rw [hdepth]; exact hle)
        | begins a => exact hnested.mono (by rw [hdepth]; exact Nat.le_succ_of_le hle)
        | ends => exact False.elim (hgoes rfl)
      · have hends : s.scene.pending.length=scene.pending.length+1 := hdepth
        have hle : base s.stack ≤ scene.pending.length := by omega
        exact hs.nested.mono hle
  | operatorCall work stack S hspend hS =>
    refine sound_iterate hs hS (valid_spend hspend hs.frames) (nested_spend hspend hs.nested).1
      (fun n hn => List.mem_of_head? hn) ?_
    exact Arrived.first rfl (begin_exact (hs.numbered k S hS))
  | midway work S _ hassigning => exact Bool.noConfusion (hok.symm.trans hassigning)
  | advance work f rest S hstack _ hbase hS _ =>
    have hframes := hs.frames
    have hnested := hs.nested
    rw [hstack] at hframes hnested
    obtain ⟨hf,hrest⟩ := List.forall_mem_cons.mp hframes
    obtain ⟨T,hT,hnode⟩ := hf.node
    obtain rfl : S=T := Option.some.inj (hS.symm.trans hT)
    refine sound_iterate hs hS hrest (hbase ▸ hnested.2) (fun n hn => mem_of_following hn) ?_
    exact hf.arrived.next rfl (advance_exact (hs.numbered k S hS) hnode)
  | dangling work f rest S hstack _ hS hholds =>
    have hf := hs.frames f (hstack ▸ List.mem_cons_self)
    exact False.elim (hholds (hf.holds_eq hS))
  | throws f rest hstack hbase =>
    have hframes := hs.frames
    have hnested := hs.nested
    rw [hstack] at hframes hnested
    exact ⟨hs.numbered,(List.forall_mem_cons.mp hframes).2,hs.completed,hs.fault,hs.regular,
      hs.underway,hbase ▸ hnested.2⟩

/-- Nothing runs yet. -/
theorem sound_start (k : ℕ) : Sound k (.start : State (Method η σ φ δ)) :=
  ⟨nofun,nofun,nofun,rfl,rfl,nofun,trivial⟩

/-- The invariant holds along every spared run. -/
theorem sound_of_reaches {k : ℕ} {acts : List (Act η σ φ δ)} {s : State (Method η σ φ δ)}
    (h : Reaches (next k) (Spared k) .start acts s) : Sound k s := by
  exact h.invariant (sound_start k) fun hs hok hn => sound_step hs hok hn

end Invariant

section Dangling

/-- Every iterator on the call stack designates a node of the list. -/
def IteratorsHold (k : ℕ) (s : State μ) : Prop :=
  ∀ f∈s.stack,∃ S,s.scene.world.registry.sync k=some S ∧ holds S f=true

/-- From a sound state a regular step leaves the iterators valid exactly when it
disconnects no running handler. -/
theorem iteratorsHold_edit_iff {k : ℕ} {s s' : State (Method η σ φ δ)}
    {act : ErasedCallables.Act η σ φ δ} (hs : Sound k s)
    (hremains : s.stack≠[] → Remains k s.scene act)
    (hregular : ∀ a∈act.operation,Regular s.scene a) (h : next k s (.edit act)=some s') :
    IteratorsHold k s' ↔ Spared k s (.edit act) := by
  constructor
  · intro hhold
    refine ⟨⟨hremains,fun f hf herases => ?_⟩,hregular⟩
    cases next_effect h with
    | edit act stack scene hpay hscene =>
      obtain ⟨S,hS,hgone⟩ := erases_gone hs.numbered herases (hs.effect hregular hscene).1
      -- the loop is still on the stack, one operation of its handler counted
      have hloop : ∃ g∈stack,g.it=f.it := by
        rcases pay_eq_some hpay with ⟨-,hspend⟩|⟨-,rfl,-⟩
        · rcases spend_eq_some hspend with ⟨hnil,-⟩|⟨top,rest,hstack,-,rfl⟩
          · rw [hnil] at hf
            cases hf
          · rw [hstack] at hf
            rcases List.mem_cons.mp hf with rfl|hf
            · exact ⟨_,List.mem_cons_self,rfl⟩
            · exact ⟨f,List.mem_cons_of_mem _ hf,rfl⟩
        · exact ⟨f,hf,rfl⟩
      obtain ⟨g,hg,hit⟩ := hloop
      obtain ⟨T,hT,hholds⟩ := hhold g hg
      obtain rfl : S=T := Option.some.inj (hS.symm.trans hT)
      obtain ⟨n,hn,hnode⟩ := List.any_eq_true.mp hholds
      have haddr : n.addr=f.it := (of_decide_eq_true hnode).1.trans hit
      exact hgone (List.mem_map.mpr ⟨n,hn,haddr⟩)
  · intro hok f hf
    have hvalid := (sound_step hs hok h).frames f hf
    obtain ⟨S,hS,-⟩ := hvalid.node
    exact ⟨S,hS,hvalid.holds_eq hS⟩

/-- Three handlers; the first one disconnects the second one while it runs, and the
callable of the second connects a fourth handler while it is destroyed. -/
def otherRun : List (Act ℕ ℕ ℕ ℕ) :=
  [.edit (.whole .create),.edit (.whole (.connect 0 100 7)),.edit (.whole (.connect 0 101 8)),
    .edit (.whole (.connect 0 102 9)),.operatorCall 2,.edit (.begins (.disconnect 1)),
    .edit (.whole (.connect 0 103 6)),.edit .ends,.returns 0,.returns 0,.returns 0]

/-- The only handler disconnects itself. -/
def oneShotRun : List (Act ℕ ℕ ℕ ℕ) :=
  [.edit (.whole .create),.edit (.whole (.connect 0 100 7)),.operatorCall 1,
    .edit (.whole (.disconnect 0)),.returns 0]

/-- The second of two handlers dispatches again, and there the first one
disconnects the second one. -/
def nestedRun : List (Act ℕ ℕ ℕ ℕ) :=
  [.edit (.whole .create),.edit (.whole (.connect 0 100 7)),.edit (.whole (.connect 0 101 8)),
    .operatorCall 0,.returns 1,.operatorCall 1,.edit (.whole (.disconnect 1)),.returns 0,
    .returns 0]

end Dangling

end FastEventSystem.DispatchSafety
