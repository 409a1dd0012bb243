import FastEventSystem.DispatchSafety
import FastEventSystem.EndlessRuns
import Mathlib.Data.Prod.Lex
import Mathlib.Data.Set.Finite.Lattice

/-!
# Dispatch while the list of handlers changes

The handlers make finitely many connects to the `sync` being dispatched,
disconnect any handlers which are not running, and dispatch again to a bounded
depth. Then the outermost loop comes to its end: read from the outermost one,
some loop on the call stack moves on to a later connection, loses one of the
operations its handler still makes, or ends one it has begun, whatever starts above
it. At its end it has called, in connection order and once each, precisely the
handlers which were connected when their turn came, those appended meanwhile
included. All this needs that the destructor of a callable which is being
disconnected does not disconnect it again.
-/

namespace FastEventSystem.DispatchTermination

open SlotTable SyncRegistry RegistryOrder GuardedRuns CursorWalk EndlessRuns DispatchLoop
open DispatchSafety
open ErasedCallables (Scene Pending Regular disconnecting)

variable {μ η σ φ δ : Type*}

section Descent

/-- What a loop still has before it: connections up to a bound, then operations
of the running handler, then those of its operations which are in their middle. -/
def rank (bound upper : ℕ) (f : Frame) : ℕ ×ₗ (ℕ ×ₗ ℕ) :=
  toLex (bound-f.origin,toLex (f.work,upper-f.base))

/-- The ranks of the loops on the call stack, outermost first. -/
def ranks (bound : ℕ) : ℕ → List Frame → List (ℕ ×ₗ (ℕ ×ₗ ℕ))
  | _,[] => []
  | upper,f::rest => ranks bound f.base rest++[rank bound upper f]

/-- One rank a loop. -/
theorem ranks_length (bound upper : ℕ) (stack : List Frame) :
    (ranks bound upper stack).length=stack.length := by
  induction stack generalizing upper with
  | nil => rfl
  | cons f rest ih => rw [ranks,List.length_append,ih,List.length_singleton,List.length_cons]

/-- The handlers in the list of a slot have numbers below a bound. -/
def Below (bound k : ℕ) (r : Registry μ) : Prop := ∀ S,r.sync k=some S → ∀ c∈origins S,c < bound

/-- The innermost loop ends. -/
theorem descends_pop (bound upper : ℕ) (f : Frame) (rest : List Frame) :
    Descends (ranks bound f.base rest) (ranks bound upper (f::rest)) :=
  ⟨ranks bound f.base rest,rank bound upper f,[],rfl,.inl rfl⟩

/-- The innermost loop comes lower, and none is above it. -/
theorem descends_top {bound upper upper' : ℕ} {f g : Frame}
    (h : rank bound upper' g < rank bound upper f) (hbase : g.base=f.base) (rest : List Frame) :
    Descends (ranks bound upper' (g::rest)) (ranks bound upper (f::rest)) := by
  refine ⟨ranks bound f.base rest,rank bound upper f,[],rfl,
    .inr ⟨rank bound upper' g,[],h,?_⟩⟩
  rw [ranks,hbase]

/-- The innermost loop comes lower, and another one starts above it. -/
theorem descends_push {bound upper upper' : ℕ} {f g new : Frame}
    (h : rank bound new.base g < rank bound upper f) (hbase : g.base=f.base)
    (rest : List Frame) :
    Descends (ranks bound upper' (new::g::rest)) (ranks bound upper (f::rest)) := by
  refine ⟨ranks bound f.base rest,rank bound upper f,[],rfl,
    .inr ⟨rank bound new.base g,[rank bound upper' new],h,?_⟩⟩
  rw [ranks,ranks,hbase,List.append_assoc]
  rfl

/-- One operation less, whatever has begun. -/
theorem rank_spend {bound upper upper' : ℕ} {f : Frame} (h : 0 < f.work) :
    rank bound upper' {f with work := f.work-1} < rank bound upper f := by
  have hwork : f.work-1 < f.work := by omega
  exact Prod.Lex.toLex_lt_toLex.mpr (.inr ⟨rfl,Prod.Lex.toLex_lt_toLex.mpr (.inl hwork)⟩)

/-- An operation which had begun has ended. -/
theorem rank_end {bound upper upper' : ℕ} {f : Frame} (h : f.base < upper)
    (hend : upper=upper'+1) : rank bound upper' f < rank bound upper f := by
  have hdepth : upper'-f.base < upper-f.base := by omega
  exact Prod.Lex.toLex_lt_toLex.mpr
    (.inr ⟨rfl,Prod.Lex.toLex_lt_toLex.mpr (.inr ⟨rfl,hdepth⟩)⟩)

/-- A later connection. -/
theorem rank_advance {bound upper upper' : ℕ} {f g : Frame} (hlt : f.origin < g.origin)
    (hbound : g.origin < bound) : rank bound upper' g < rank bound upper f := by
  refine Prod.Lex.toLex_lt_toLex.mpr (.inl ?_)
  change bound-g.origin < bound-f.origin
  omega

/-- The head of the loop ends it with a record of it, or comes to a handler. -/
theorem iterate_stack {s : State μ} {S : Sync μ} {rest : List Frame} {after : Option ℕ}
    {turns : List (Turn ℕ)} {work : ℕ} {o : Option (Node μ)} (hmem : ∀ n∈o,n∈S.registered) :
    (o=none ∧ (s.iterate S rest after turns work o).stack=rest ∧
      (s.iterate S rest after turns work o).completed=
        ⟨rest.length,⟨after,origins S,none⟩::turns⟩::s.completed) ∨
    ∃ n f,o=some n ∧ f.origin=n.origin ∧ f.base=s.scene.pending.length ∧
      (s.iterate S rest after turns work o).stack=f::rest := by
  cases o with
  | none => exact .inl ⟨rfl,rfl,rfl⟩
  | some n =>
    obtain ⟨forwards,heq⟩ := iterate_some (s := s) (hmem n rfl)
    rw [heq]
    exact .inr ⟨n,_,rfl,rfl,rfl,rfl⟩

/-- The head of the loop changes no subscription. -/
theorem iterate_scene (s : State μ) (S : Sync μ) (rest : List Frame) (after : Option ℕ)
    (turns : List (Turn ℕ)) (work : ℕ) (o : Option (Node μ)) :
    (s.iterate S rest after turns work o).scene=s.scene := by
  unfold State.iterate
  split
  · rfl
  · split <;> rfl

/-- The ranks of the loops of a state. -/
def State.ranked (bound : ℕ) (s : State μ) : List (ℕ ×ₗ (ℕ ×ₗ ℕ)) :=
  ranks bound s.scene.pending.length s.stack

/-- Every spared step of a sound state with a loop in progress descends. -/
theorem step_descends {bound k : ℕ} {s s' : State (Method η σ φ δ)} {a : Act η σ φ δ}
    (hs : Sound k s) (hok : Spared k s a) (hne : s.stack≠[])
    (hbelow : Below bound k s.scene.world.registry) (h : next k s a=some s') :
    Descends (State.ranked bound s') (State.ranked bound s) := by
  unfold State.ranked
  cases next_effect h with
  | edit act stack scene hpay hscene =>
    rcases pay_eq_some hpay with ⟨-,hspend⟩|⟨rfl,rfl,hdue⟩
    · rcases spend_eq_some hspend with ⟨hnil,-⟩|⟨f,rest,hstack,hwork,rfl⟩
      · exact False.elim (hne hnil)
      · rw [hstack]
        exact descends_top (rank_spend hwork) rfl rest
    · obtain ⟨f,rest,hstack⟩ := List.exists_cons_of_ne_nil hne
      rw [hstack,base] at hdue
      have hend := ErasedCallables.pending_step (hs.effect hok.2 hscene).1
      rw [hstack]
      exact descends_top (rank_end hdue hend) rfl rest
  | operatorCall work stack S hspend hS =>
    rw [iterate_scene]
    rcases spend_eq_some hspend with ⟨hnil,-⟩|⟨f,rest,hstack,hwork,rfl⟩
    · exact False.elim (hne hnil)
    · rw [hstack]
      rcases iterate_stack (s := s) (S := S) fun n hn => List.mem_of_head? hn with
        ⟨-,hends,-⟩|⟨n,g,-,-,-,hcalls⟩
      · rw [hends]
        exact descends_top (rank_spend hwork) rfl rest
      · rw [hcalls]
        exact descends_push (rank_spend hwork) rfl rest
  | midway work S _ hassigning => exact Bool.noConfusion (hok.symm.trans hassigning)
  | advance work f rest S hstack hwork hbase hS hholds =>
    rw [iterate_scene,hstack,hbase]
    obtain ⟨T,hT,hnode⟩ := (hs.frames f (hstack ▸ List.mem_cons_self)).node
    obtain rfl : S=T := Option.some.inj (hS.symm.trans hT)
    have hexact := advance_exact (hs.numbered k S hS) hnode
    rcases iterate_stack (s := s) (S := S) fun n hn => mem_of_following hn with
      ⟨-,hends,-⟩|⟨n,g,hnext,horigin,hdepth,hcalls⟩
    · rw [hends]
      exact descends_pop bound f.base f rest
    · rw [hnext] at hexact
      obtain ⟨hpresent,hahead⟩ := hexact.sound n.origin rfl
      have hlt : f.origin < n.origin := hahead f.origin rfl
      have hbound : n.origin < bound := hbelow S hS n.origin hpresent
      rw [hcalls]
      exact descends_top (rank_advance (horigin ▸ hlt) (horigin ▸ hbound))
        (hdepth.trans hbase) rest
  | dangling work f rest S hstack _ hS hholds =>
    have hf := hs.frames f (hstack ▸ List.mem_cons_self)
    exact False.elim (hholds (hf.holds_eq hS))
  | throws f rest hstack hbase =>
    rw [hstack]
    change Descends (ranks bound s.scene.pending.length rest) _
    rw [hbase]
    exact descends_pop bound f.base f rest

end Descent

section Ending

/-- The step connects to the `sync` in the slot. -/
def ConnectsTo (k : ℕ) : Act η σ φ δ → Prop
  | .edit act => ∃ method,connects act=some (k,method)
  | _ => False

/-- While a loop runs, only connects to the slot give its list larger numbers. -/
theorem below_step {bound k : ℕ} {s s' : State (Method η σ φ δ)} {a : Act η σ φ δ}
    (hs : Sound k s) (hne : s.stack≠[]) (hbelow : Below bound k s.scene.world.registry)
    (hok : Spared k s a) (hno : ¬ConnectsTo k a) (h : next k s a=some s') :
    Below bound k s'.scene.world.registry := by
  cases next_effect h with
  | edit act stack scene _ hscene =>
    intro S' hS' c hc
    obtain ⟨f,hf⟩ := List.exists_mem_of_ne_nil _ hne
    obtain ⟨S,hS,-⟩ := (hs.frames f hf).node
    obtain ⟨T,hstep⟩ := scene_step (hok.1.1 hne) hS (hs.effect hok.2 hscene).1
    obtain rfl : S'=T := Option.some.inj (hS'.symm.trans hstep.sync)
    obtain ⟨n,hn,rfl⟩ := List.mem_map.mp hc
    have hold : n∈S.registered := hstep.adds.resolve_left hno n hn
    exact hbelow S hS n.origin (List.mem_map.mpr ⟨n,hold,rfl⟩)
  | operatorCall work stack S _ _ =>
    rw [iterate_scene]
    exact hbelow
  | advance work f rest S _ _ _ _ _ =>
    rw [iterate_scene]
    exact hbelow
  | midway | dangling | throws => exact hbelow

/-- A run in which no handler throws is a spared run. -/
theorem Disciplined.spared {k : ℕ} {s : State (Method η σ φ δ)} {a : Act η σ φ δ}
    (h : Disciplined k s a) : Spared k s a := by
  cases a with
  | throws => exact False.elim h
  | edit a => exact h
  | operatorCall work => exact h
  | returns work => exact h

/-- So the invariant holds along it. -/
theorem sound_of_disciplined {k : ℕ} {acts : List (Act η σ φ δ)} {s : State (Method η σ φ δ)}
    (h : Reaches (next k) (Disciplined k) .start acts s) : Sound k s :=
  sound_of_reaches (h.mono fun _ _ hok => Disciplined.spared hok)

/-- It also holds as long as the loops of a run are in progress. -/
theorem sound_along {k : ℕ} {run : ℕ → State (Method η σ φ δ)} {acts : ℕ → Act η σ φ δ}
    (hstart : Sound k (run 0))
    (hrun : ∀ n,(run n).stack≠[] → Disciplined k (run n) (acts n) ∧
      next k (run n) (acts n)=some (run (n+1))) (n : ℕ) (hbefore : ∀ m < n,(run m).stack≠[]) :
    Sound k (run n) := by
  induction n with
  | zero => exact hstart
  | succ n ih =>
    have hs := ih fun m hm => hbefore m (Nat.lt_succ_of_lt hm)
    obtain ⟨hok,hstep⟩ := hrun n (hbefore n (Nat.lt_succ_self n))
    exact sound_step hs (Disciplined.spared hok) hstep

/-- Loops in progress come to an end, if the connects to the `sync` are finitely
many and the depth is bounded. -/
theorem stack_empties {k depth : ℕ} {f : ℕ → State (Method η σ φ δ)} {acts : ℕ → Act η σ φ δ}
    (hstart : Sound k (f 0))
    (hrun : ∀ n,(f n).stack≠[] → Disciplined k (f n) (acts n) ∧
      next k (f n) (acts n)=some (f (n+1)))
    (hfinite : {n | ConnectsTo k (acts n)}.Finite) (hdepth : ∀ n,(f n).stack.length ≤ depth) :
    ∃ n,(f n).stack=[] := by
  by_contra hnever
  have hne : ∀ n,(f n).stack≠[] := fun n hn => hnever ⟨n,hn⟩
  have hsound : ∀ n,Sound k (f n) := fun n => sound_along hstart hrun n fun m _ => hne m
  -- after the last connect all handlers of the list have their numbers already
  obtain ⟨last,hlast⟩ := hfinite.bddAbove
  have hbelow : ∀ m,Below (f (last+1)).scene.world.registry.heap.length k
      (f (last+1+m)).scene.world.registry := by
    intro m
    induction m with
    | zero => exact fun S hS => ((hsound (last+1)).numbered k S hS).below
    | succ m ih =>
      obtain ⟨hok,hstep⟩ := hrun (last+1+m) (hne _)
      refine below_step (hsound _) (hne _) ih (Disciplined.spared hok) (fun hconnects => ?_) hstep
      have hle : last+1+m ≤ last := hlast hconnects
      omega
  obtain ⟨m,hm⟩ := no_infinite_descent depth
    (fun m => State.ranked (f (last+1)).scene.world.registry.heap.length (f (last+1+m)))
    fun m => by
      rw [State.ranked,ranks_length]
      exact hdepth _
  obtain ⟨hok,hstep⟩ := hrun (last+1+m) (hne _)
  exact hm (step_descends (hsound _) (Disciplined.spared hok) (hne _) (hbelow m) hstep)

/-- The call stack gets empty by the outermost loop coming to its end. -/
theorem completed_of_emptied {k : ℕ} {s s' : State (Method η σ φ δ)} {a : Act η σ φ δ}
    (hok : Disciplined k s a) (h : next k s a=some s') (hne : s.stack≠[]) (hnil : s'.stack=[]) :
    ∃ turns,s'.completed=⟨0,turns⟩::s.completed := by
  cases next_effect h with
  | edit act stack scene hpay _ =>
    rcases pay_eq_some hpay with ⟨-,hspend⟩|⟨-,rfl,-⟩
    · rcases spend_eq_some hspend with ⟨hempty,-⟩|⟨f,rest,-,-,rfl⟩
      · exact False.elim (hne hempty)
      · cases hnil
    · exact False.elim (hne hnil)
  | operatorCall work stack S hspend hS =>
    rcases spend_eq_some hspend with ⟨hempty,-⟩|⟨f,rest,-,-,rfl⟩
    · exact False.elim (hne hempty)
    · rcases iterate_stack (s := s) (S := S) fun n hn => List.mem_of_head? hn with
        ⟨-,hends,-⟩|⟨n,g,-,-,-,hcalls⟩
      · rw [hends] at hnil
        cases hnil
      · rw [hcalls] at hnil
        cases hnil
  | midway => exact False.elim (hne hnil)
  | advance work f rest S _ _ _ _ _ =>
    rcases iterate_stack (s := s) (S := S) fun n hn => mem_of_following hn with
      ⟨-,hends,hrecord⟩|⟨n,g,-,-,-,hcalls⟩
    · rw [hends] at hnil
      rw [hrecord,hnil]
      exact ⟨_,rfl⟩
    · rw [hcalls] at hnil
      cases hnil
  | dangling => exact False.elim (hne hnil)
  | throws => exact False.elim hok

end Ending

section Precise

/-- What a loop which came to its end has called. -/
structure Orderly (turns : List (Turn ℕ)) : Prop where
  /-- In connection order, none twice. -/
  ordered : (visited turns).Pairwise (· < ·)
  /-- Each handler was connected when it was called. -/
  connected : ∀ t∈turns,∀ c∈t.chosen,c∈t.present
  /-- Every connection has its turn once, and its handler is called exactly when
  it is connected then. -/
  precise : ∀ c,∃ t∈turns,t.Covers c ∧ (∀ u∈turns,u.Covers c → u=t) ∧
    (c∈visited turns ↔ c∈t.present)

/-- A walk to the end is orderly. -/
theorem orderly_of_arrived {turns : List (Turn ℕ)} (h : Arrived turns none) : Orderly turns :=
  ⟨h.walk.visited_sorted,fun t ht c hc => ((h.walk.exact t ht).sound c hc).1,h.one_turn⟩

/-- The running handler can make its operations, and return after the last when all
it began have ended. -/
structure CanContinue (k : ℕ) (s : State (Method η σ φ δ)) (f : Frame) : Prop where
  /-- Nothing ended which another handler began. -/
  nested : f.base ≤ s.scene.pending.length
  /-- What it began ends. -/
  ends : f.base < s.scene.pending.length → ∃ s',next k s (.edit .ends)=some s'
  /-- It returns. -/
  returns : f.work=0 → s.scene.pending.length=f.base →
    ∀ work,∃ s',next k s (.returns work)=some s'
  /-- It dispatches again. -/
  operatorCall : 0 < f.work → ∀ work,∃ s',next k s (.operatorCall work)=some s'
  /-- It connects, disconnects or does whatever else the subscriptions accept. -/
  edit : 0 < f.work → ∀ act scene,act≠.ends → ErasedCallables.next s.scene act=some scene →
    ∃ s',next k s (.edit act)=some s'

/-- No running handler of a sound state is stuck. -/
theorem canContinue_of_sound {k : ℕ} {s : State (Method η σ φ δ)} {f : Frame}
    {rest : List Frame} (hs : Sound k s) (hstack : s.stack=f::rest) : CanContinue k s f := by
  have hf := hs.frames f (hstack ▸ List.mem_cons_self)
  obtain ⟨S,hS,-⟩ := hf.node
  have hnested := hs.nested
  rw [hstack] at hnested
  have hspend : 0 < f.work → spend s.stack=some ({f with work := f.work-1}::rest) := by
    intro hwork
    rw [hstack,spend,if_neg (Nat.ne_of_gt hwork)]
  refine ⟨hnested.1,fun hdue => ?_,fun hwork hbase work => ?_,fun hwork work => ?_,
    fun hwork act scene hact hscene => ?_⟩
  · have hpending : s.scene.pending≠[] := List.ne_nil_of_length_pos (by omega)
    obtain ⟨scene,hscene⟩ := ErasedCallables.ends_accepted hs.underway hs.regular hpending
    refine Option.isSome_iff_exists.mp ?_
    simp only [next,hs.fault,hs.regular,Option.isSome_none,Bool.false_eq_true,or_self,if_false,
      State.pay,hstack,base,if_pos hdue,Option.bind_some,hscene,Option.map_some,Option.isSome_some]
  · refine Option.isSome_iff_exists.mp ?_
    simp only [next,hs.fault,hs.regular,Option.isSome_none,Bool.false_eq_true,or_self,if_false,
      hstack,hwork,hbase,and_self,if_true,hS,Option.map_some,Option.isSome_some]
  · refine Option.isSome_iff_exists.mp ?_
    simp only [next,hs.fault,hs.regular,Option.isSome_none,Bool.false_eq_true,or_self,if_false,
      hspend hwork,Option.bind_some,hS,Option.map_some,Option.isSome_some]
  · have hpay : s.pay act=some ({f with work := f.work-1}::rest) := by
      cases act with
      | whole a => exact hspend hwork
      | begins a => exact hspend hwork
      | ends => exact False.elim (hact rfl)
    refine Option.isSome_iff_exists.mp ?_
    simp only [next,hs.fault,hs.regular,Option.isSome_none,Bool.false_eq_true,or_self,if_false,
      hpay,Option.bind_some,hscene,Option.map_some,Option.isSome_some]

/-- The `sync` is moreover neither the result of a copy or a move nor moved away
at any time. -/
def Put (k : ℕ) (s : State (Method η σ φ δ)) : Act η σ φ δ → Prop
  | .edit act => Disciplined k s (.edit act) ∧ ∀ a∈act.operation,StaysPut k s.scene.world a
  | a => Disciplined k s a

instance (k : ℕ) (s : State (Method η σ φ δ)) : (a : Act η σ φ δ) → Decidable (Put k s a)
  | .edit act => inferInstanceAs (Decidable (Disciplined k s (.edit act) ∧
      ∀ a∈act.operation,StaysPut k s.scene.world a))
  | .operatorCall work => inferInstanceAs (Decidable (Disciplined k s (.operatorCall work)))
  | .returns work => inferInstanceAs (Decidable (Disciplined k s (.returns work)))
  | .throws => inferInstanceAs (Decidable (Disciplined k s .throws))

/-- A step which leaves the `sync` put is disciplined. -/
theorem Put.disciplined {k : ℕ} {s : State (Method η σ φ δ)} {a : Act η σ φ δ}
    (h : Put k s a) : Disciplined k s a := by
  cases a with
  | edit a => exact h.1
  | operatorCall work => exact h
  | returns work => exact h
  | throws => exact h

/-- What holds of a `sync` which stays put. -/
structure Attached (k : ℕ) (s : State (Method η σ φ δ)) : Prop where
  /-- Its list is that of the connections which are connected and not just being
  disconnected. -/
  kept : Kept s.scene.settled.registry k
  /-- It is not assigned to. -/
  unassigned : ∀ p∈s.scene.pending,p.assigns k=false

/-- Nothing is connected yet. -/
theorem attached_start (k : ℕ) : Attached k (.start : State (Method η σ φ δ)) :=
  ⟨kept_start k,nofun⟩

/-- A step of the scene which leaves the `sync` put. -/
theorem attached_scene {k : ℕ} {s s' : Scene (Method η σ φ δ)} {act : ErasedCallables.Act η σ φ δ}
    (hkept : Kept s.settled.registry k) (hnone : ∀ p∈s.pending,p.assigns k=false)
    (hok : ∀ a∈act.operation,StaysPut k s.world a) (h : ErasedCallables.Effect s act s') :
    Kept s'.settled.registry k ∧ ∀ p∈s'.pending,p.assigns k=false := by
  have hput : ∀ a,act.operation=some a → StaysPut k s.settled a := by
    intro a ha
    have hworld := hok a ha
    cases a <;> exact hworld
  cases h with
  | whole a _ _ hnext hpending =>
    exact ⟨kept_step hkept (hput a rfl) hnext,fun p hp => hnone p (hpending ▸ hp)⟩
  | unlinks a c _ _ _ _ hnext hpending =>
    refine ⟨kept_step hkept (hput a rfl) hnext,fun p hp => ?_⟩
    rw [hpending] at hp
    rcases List.mem_cons.mp hp with rfl|hp
    · rfl
    · exact hnone p hp
  | copies a b addrs A B _ _ _ _ _ _ hheap hrw hpending =>
    have ha : a≠k := hput _ rfl
    refine ⟨hkept.frame hheap hrw.grows (.inl (hrw.elsewhere k (Ne.symm ha))),fun p hp => ?_⟩
    rw [hpending] at hp
    rcases List.mem_cons.mp hp with rfl|hp
    · exact decide_eq_false ha
    · exact hnone p hp
  | clears a b A B _ _ _ _ hheap hrw hpending =>
    have hab : a≠k ∧ b≠k := hput _ rfl
    refine ⟨hkept.frame hheap hrw.grows (.inl (hrw.elsewhere k (Ne.symm hab.1))),
      fun p hp => ?_⟩
    rw [hpending] at hp
    rcases List.mem_cons.mp hp with rfl|hp
    · exact decide_eq_false (not_or.mpr hab)
    · exact hnone p hp
  | lowers c _ hpending hsame =>
    refine ⟨?_,fun p hp => hnone p (hpending ▸ List.mem_cons_of_mem _ hp)⟩
    rw [hsame]
    exact hkept
  | assigns a b A B _ hpending _ _ hheap hrw =>
    have ha := of_decide_eq_false (hnone (.copyAssigning a b) (hpending ▸ List.mem_cons_self))
    exact ⟨hkept.frame hheap hrw.grows (.inl (hrw.elsewhere k (Ne.symm ha))),
      fun p hp => hnone p (hpending ▸ List.mem_cons_of_mem _ hp)⟩
  | moves a b _ hpending hnext =>
    have hab := of_decide_eq_false (hnone (.moveAssigning a b) (hpending ▸ List.mem_cons_self))
    have hmove : StaysPut k s.settled (.moveAssignSync a b) := not_or.mp hab
    exact ⟨kept_step hkept hmove hnext,
      fun p hp => hnone p (hpending ▸ List.mem_cons_of_mem _ hp)⟩

/-- A `sync` which stays put stays attached to its connections. -/
theorem attached_of_put {k : ℕ} {acts : List (Act η σ φ δ)} {s : State (Method η σ φ δ)}
    (h : Reaches (next k) (Put k) .start acts s) : Attached k s := by
  have hboth : Sound k s ∧ Attached k s := by
    refine h.invariant (I := fun s => Sound k s ∧ Attached k s)
      ⟨sound_start k,attached_start k⟩ ?_
    intro s a s' ⟨hs,hattached⟩ hok hstep
    refine ⟨sound_step hs (Disciplined.spared (Put.disciplined hok)) hstep,?_⟩
    cases next_effect hstep with
    | edit act stack scene _ hscene =>
      have heffect := (hs.effect hok.1.2 hscene).1
      obtain ⟨hkept,hnone⟩ := attached_scene hattached.kept hattached.unassigned hok.2 heffect
      exact ⟨hkept,hnone⟩
    | operatorCall work stack S _ _ =>
      refine ⟨?_,?_⟩ <;> rw [iterate_scene]
      · exact hattached.kept
      · exact hattached.unassigned
    | advance work f rest S _ _ _ _ _ =>
      refine ⟨?_,?_⟩ <;> rw [iterate_scene]
      · exact hattached.kept
      · exact hattached.unassigned
    | midway | dangling | throws => exact ⟨hattached.kept,hattached.unassigned⟩
  exact hboth.2

/-- The first moment with an empty call stack is the end of the outermost loop. -/
theorem first_end {k : ℕ} {run : ℕ → State (Method η σ φ δ)} {acts : ℕ → Act η σ φ δ}
    (hstart : Sound k (run 0)) (hne : (run 0).stack≠[])
    (hrun : ∀ n,(run n).stack≠[] → Disciplined k (run n) (acts n) ∧
      next k (run n) (acts n)=some (run (n+1))) (hends : ∃ n,(run n).stack=[]) :
    ∃ n,(∀ m ≤ n,(run m).stack≠[]) ∧ (run (n+1)).stack=[] ∧
      ∃ turns,(run (n+1)).completed=⟨0,turns⟩::(run n).completed ∧ Orderly turns := by
  classical
  have hnil := Nat.find_spec hends
  have hbefore : ∀ m < Nat.find hends,(run m).stack≠[] := fun m hm => Nat.find_min hends hm
  have hsound := sound_along hstart hrun (Nat.find hends) hbefore
  cases hfirst : Nat.find hends with
  | zero =>
    rw [hfirst] at hnil
    exact False.elim (hne hnil)
  | succ n =>
    rw [hfirst] at hnil hbefore hsound
    obtain ⟨hok,hstep⟩ := hrun n (hbefore n (Nat.lt_succ_self n))
    obtain ⟨turns,hturns⟩ :=
      completed_of_emptied hok hstep (hbefore n (Nat.lt_succ_self n)) hnil
    refine ⟨n,fun m hm => hbefore m (Nat.lt_succ_of_le hm),hnil,turns,hturns,?_⟩
    have hcompleted := hsound.completed
    rw [hturns] at hcompleted
    exact orderly_of_arrived (hcompleted _ List.mem_cons_self)

/-- The numbers of the listed nodes are those of the connected connections. -/
theorem mem_connectedOrigins {heap : List (InternalConnection μ)} {k c : ℕ} :
    c∈(connectedNodes heap k).map Node.origin ↔
      ∃ conn,heap[c]?=some conn ∧ conn.connected=true ∧ conn.registered=k := by
  rw [List.mem_map]
  constructor
  · rintro ⟨n,hn,rfl⟩
    obtain ⟨conn,hc,hflag,hk,-⟩ := mem_connectedNodes.mp hn
    exact ⟨conn,hc,hflag,hk⟩
  · rintro ⟨conn,hc,hflag,hk⟩
    exact ⟨⟨conn.it,conn.method,c⟩,mem_connectedNodes.mpr ⟨conn,hc,hflag,hk,rfl⟩,rfl⟩

/-- A connection is seen among the settled ones as it is, unless it is just being
disconnected. -/
theorem getElem?_settled (s : Scene μ) (c : ℕ) : s.settled.registry.heap[c]?=
    s.world.registry.heap[c]?.map fun conn =>
      if c∈disconnecting s.pending then {conn with connected := false} else conn :=
  ErasedCallables.getElem?_settleHeap _ _ c

/-- The numbers of the listed nodes are those of the connections which are connected
and not just being disconnected. -/
theorem Attached.mem_origins {k c : ℕ} {s : State (Method η σ φ δ)}
    {S : Sync (Method η σ φ δ)} (h : Attached k s) (hS : s.scene.world.registry.sync k=some S) :
    c∈origins S ↔ ∃ conn,s.scene.world.registry.heap[c]?=some conn ∧ conn.connected=true ∧
      conn.registered=k ∧ c∉disconnecting s.scene.pending := by
  rw [origins,h.kept.registered S hS,mem_connectedOrigins,getElem?_settled]
  constructor
  · rintro ⟨settled,hsettled,hflag,hk⟩
    obtain ⟨conn,hc,rfl⟩ := Option.map_eq_some_iff.mp hsettled
    by_cases hbusy : c∈disconnecting s.scene.pending
    · rw [if_pos hbusy] at hflag
      cases hflag
    · rw [if_neg hbusy] at hflag hk
      exact ⟨conn,hc,hflag,hk,hbusy⟩
  · rintro ⟨conn,hc,hflag,hk,hbusy⟩
    refine ⟨conn,?_,hflag,hk⟩
    rw [hc,Option.map_some,if_neg hbusy]

/-- A disconnect of a handler of the `sync` is regular, unless it repeats one which
is in its middle, or the list is being copied. -/
theorem Attached.regular_disconnect {k c : ℕ} {s : State (Method η σ φ δ)}
    {S : Sync (Method η σ φ δ)} {conn : InternalConnection (Method η σ φ δ)}
    (h : Attached k s) (hS : s.scene.world.registry.sync k=some S)
    (hconn : s.scene.world.registry.heap[c]?=some conn) (hk : conn.registered=k)
    (hbusy : c∉disconnecting s.scene.pending) (hidle : ∀ p∈s.scene.pending,p.uses k=false) :
    Regular s.scene (.disconnect c : ConnectionObjects.Act η σ φ δ) := by
  have hslot : ∀ j∈ErasedCallables.altered s.scene.world
      (.disconnect c : ConnectionObjects.Act η σ φ δ),j=k := by
    intro j hj
    change j∈(ErasedCallables.erasedBy s.scene.world.registry c).toList.map Prod.fst++[] at hj
    rw [List.append_nil,ErasedCallables.erasedBy,hconn] at hj
    simp only at hj
    split at hj
    · exact (List.mem_singleton.mp hj).trans hk
    · cases hj
  have hclash : s.scene.clashes (.disconnect c : ConnectionObjects.Act η σ φ δ)=false := by
    refine List.any_eq_false.mpr fun p hp hexcludes => ?_
    have huses : (ErasedCallables.altered s.scene.world
        (.disconnect c : ConnectionObjects.Act η σ φ δ)).any p.uses=false := by
      refine List.any_eq_false.mpr fun j hj => ?_
      rw [hslot j hj,hidle p hp]
      exact Bool.false_ne_true
    cases p with
    | disconnecting d =>
      obtain ⟨other,-,hother⟩ := (Option.any_eq_true _ _).mp hexcludes
      cases of_decide_eq_true hother
    | copyAssigning a b | moveAssigning a b =>
      have hnone : (_ || false)=true := hexcludes
      rw [huses] at hnone
      cases hnone
  refine ⟨hclash,?_⟩
  change s.scene.lost c=false
  rw [Scene.lost,decide_eq_false hbusy,Bool.false_or]
  cases hl : s.scene.world.registry.locks c with
  | false => rfl
  | true =>
    have hsome : ∃ r,s.scene.world.registry.disconnect c=some r := by
      cases hflag : conn.connected with
      | false => exact ⟨_,disconnect_lowered hconn hflag⟩
      | true =>
        have hsettled : s.scene.settled.registry.heap[c]?=some conn := by
          rw [getElem?_settled,hconn,Option.map_some,if_neg hbusy]
        have hnode := (h.kept.own_node hS hsettled hk hflag).1
        obtain ⟨r,-,hr,-⟩ := SyncLifetime.Designates.disconnect hl hconn (hk ▸ hS) hflag hnode
        exact ⟨r,hr⟩
    obtain ⟨r,hr⟩ := hsome
    rw [hr]
    rfl

/-- Disconnecting a handler of the `sync` which does not run, and is not just being
disconnected, is admitted. -/
theorem Attached.put_disconnect {k c : ℕ} {s : State (Method η σ φ δ)}
    {conn : InternalConnection (Method η σ φ δ)} (hs : Sound k s) (h : Attached k s)
    (hregular : Regular s.scene (.disconnect c : ConnectionObjects.Act η σ φ δ))
    (hconn : s.scene.world.registry.heap[c]?=some conn)
    (hbusy : c∉disconnecting s.scene.pending) (hc : c∉s.stack.map Frame.origin) :
    Put k s (.edit (.whole (.disconnect c))) ∧ Put k s (.edit (.begins (.disconnect c))) := by
  have hspares : ∀ f∈s.stack,ErasedCallables.erased s.scene.world
      (.disconnect c : ConnectionObjects.Act η σ φ δ)≠some (k,f.it) := by
    intro f hf herased
    obtain ⟨S,hS,n,hn,haddr,horigin⟩ := (hs.frames f hf).node
    change ErasedCallables.erasedBy s.scene.world.registry c=some (k,f.it) at herased
    rw [ErasedCallables.erasedBy,hconn] at herased
    simp only at herased
    split at herased
    · rename_i hflag
      obtain ⟨hk,hit⟩ := Prod.mk.inj (Option.some.inj herased)
      have hsettled : s.scene.settled.registry.heap[c]?=some conn := by
        rw [getElem?_settled,hconn,Option.map_some,if_neg hbusy]
      have hown := ((h.kept.own_node hS hsettled hk hflag.2).2 n hn).mp (haddr.trans hit.symm)
      exact hc (List.mem_map.mpr ⟨f,hf,horigin.symm.trans hown⟩)
    · cases herased
  have hoperation : ∀ a∈some (.disconnect c : ConnectionObjects.Act η σ φ δ),
      Regular s.scene a ∧ StaysPut k s.scene.world a := by
    intro a ha
    cases ha
    exact ⟨hregular,trivial⟩
  refine ⟨⟨⟨⟨fun _ => trivial,hspares⟩,fun a ha => (hoperation a ha).1⟩,
    fun a ha => (hoperation a ha).2⟩,⟨⟨fun _ => trivial,hspares⟩,
    fun a ha => (hoperation a ha).1⟩,fun a ha => (hoperation a ha).2⟩

/-- Three handlers; the first one connects a fourth, disconnects the second and
dispatches again while its callable is being destroyed. In the end the fourth
handler of the outermost loop runs. -/
def changingRun : List (Act ℕ ℕ ℕ ℕ) :=
  [.edit (.whole .create),.edit (.whole (.connect 0 100 7)),.edit (.whole (.connect 0 101 8)),
    .edit (.whole (.connect 0 102 9)),.operatorCall 3,.edit (.whole (.connect 0 103 6)),
    .edit (.begins (.disconnect 1)),.operatorCall 0,.returns 0,.returns 0,.returns 0,.edit .ends,
    .returns 0,.returns 0]

/-- Three handlers; the first one disconnects the second one, whose callable owns its
own connection object. -/
def twiceErasedRun : List (Act ℕ ℕ ℕ ℕ) :=
  [.edit (.whole .create),.edit (.whole (.connect 0 100 7)),.edit (.whole (.connect 0 101 8)),
    .edit (.whole (.connect 0 102 9)),.edit (.whole (.construct (some 1))),.operatorCall 2,
    .edit (.begins (.disconnect 1)),.edit (.whole (.destroy 0))]

end Precise

end FastEventSystem.DispatchTermination
