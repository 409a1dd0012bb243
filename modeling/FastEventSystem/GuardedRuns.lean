import Mathlib.Data.List.Basic

/-!
# Guarded runs of executable step functions

A machine is one executable step function; a refused action is `none`. Runs
carry the literal list of performed actions and a guard on every step, so one
machine serves several claims which admit different environments. The
invariant rule, the monotonicity of guards and the replay of a literal action
list are proved once here. Nothing below mentions a particular program.
-/

namespace FastEventSystem.GuardedRuns

universe u v

variable {σ : Type u} {ℓ : Type v}

/-- Actions performed so far, oldest first, with every step admitted by the
guard and accepted by the step function. -/
inductive Reaches (next : σ → ℓ → Option σ) (ok : σ → ℓ → Prop) (start : σ) :
    List ℓ → σ → Prop
  | start : Reaches next ok start [] start
  | step {acts : List ℓ} {s s' : σ} (a : ℓ) :
      Reaches next ok start acts s → ok s a → next s a=some s' →
        Reaches next ok start (acts++[a]) s'

/-- A predicate true at the start and kept by every admitted step holds at
the end of every guarded run. -/
theorem Reaches.invariant {next : σ → ℓ → Option σ} {ok : σ → ℓ → Prop} {start : σ}
    {I : σ → Prop} (h0 : I start)
    (hstep : ∀ {s a s'}, I s → ok s a → next s a=some s' → I s')
    {acts : List ℓ} {s : σ} (h : Reaches next ok start acts s) : I s := by
  induction h with
  | start => exact h0
  | step a _ hok hn ih => exact hstep ih hok hn

/-- A run admitted by a guard is admitted by every weaker guard. -/
theorem Reaches.mono {next : σ → ℓ → Option σ} {ok ok' : σ → ℓ → Prop} {start : σ}
    (hle : ∀ s a, ok s a → ok' s a) {acts : List ℓ} {s : σ}
    (h : Reaches next ok start acts s) : Reaches next ok' start acts s := by
  induction h with
  | start => exact .start
  | step a _ hok hn ih => exact .step a ih (hle _ _ hok) hn

/-- Steps which change nothing can be taken in any number. -/
theorem Reaches.idle_steps {next : σ → ℓ → Option σ} {ok : σ → ℓ → Prop} {start : σ}
    {acts : List ℓ} {s : σ} (h : Reaches next ok start acts s) {more : List ℓ}
    (hmore : ∀ a∈more,ok s a ∧ next s a=some s) : Reaches next ok start (acts++more) s := by
  induction more generalizing acts with
  | nil => rwa [List.append_nil]
  | cons a more ih =>
    obtain ⟨⟨hok,hn⟩,hrest⟩ := List.forall_mem_cons.mp hmore
    rw [←List.singleton_append,←List.append_assoc]
    exact ih (h.step a hok hn) hrest

section Literals

-- A number of a party in a literal run is written with one of these constants,
-- so that it reads the same wherever the run is defined.

instance neZero_one : @NeZero ℕ Zero.ofOfNat0 1 := ⟨Nat.succ_ne_zero 0⟩

instance neZero_two : @NeZero ℕ Zero.ofOfNat0 2 := ⟨Nat.succ_ne_zero 1⟩

instance neZero_three : @NeZero ℕ Zero.ofOfNat0 3 := ⟨Nat.succ_ne_zero 2⟩

instance neZero_four : @NeZero ℕ Zero.ofOfNat0 4 := ⟨Nat.succ_ne_zero 3⟩

end Literals

/-- The guard which admits every step. -/
def Unrestricted (_ : σ) (_ : ℓ) : Prop := True

instance (s : σ) (a : ℓ) : Decidable (Unrestricted s a) := inferInstanceAs (Decidable True)

section Images

variable {τ : Type*} {next : σ → ℓ → Option σ} {next' : τ → ℓ → Option τ} {f : σ → τ}
  {ok : σ → ℓ → Prop} {ok' : τ → ℓ → Prop} {I : σ → Prop} {start : σ} {acts : List ℓ}

/-- The second outcome of a step is the image of the first, which keeps the
invariant. -/
def Carries (f : σ → τ) (I : σ → Prop) (outcome : Option σ) (outcome' : Option τ) : Prop :=
  outcome'=outcome.map f ∧ ∀ s∈outcome,I s

/-- Both sides refuse. -/
theorem Carries.refused : Carries f I none none := by
  refine ⟨rfl,fun s hs => ?_⟩
  cases hs

/-- Both sides step. -/
theorem Carries.stepped {s : σ} {t : τ} (h : t=f s) (hs : I s) : Carries f I (some s) (some t) := by
  refine ⟨congrArg some h,fun u hu => ?_⟩
  cases hu
  exact hs

/-- A map which commutes with every admitted step from a state of an invariant
takes runs to runs. -/
theorem Reaches.image_of_carries (h0 : I start) (hok : ∀ s a,ok' (f s) a ↔ ok s a)
    (hstep : ∀ {s a},I s → ok s a → Carries f I (next s a) (next' (f s) a))
    {s : σ} (h : Reaches next ok start acts s) :
    I s ∧ Reaches next' ok' (f start) acts (f s) := by
  induction h with
  | start => exact ⟨h0,.start⟩
  | step a _ hadmitted hn ih =>
    obtain ⟨hcommutes,hkept⟩ := hstep ih.1 hadmitted
    rw [hn] at hcommutes
    exact ⟨hkept _ hn,ih.2.step a ((hok _ a).mpr hadmitted) hcommutes⟩

/-- Every run between the images is the image of a run. -/
theorem Reaches.exists_of_carries (h0 : I start) (hok : ∀ s a,ok' (f s) a ↔ ok s a)
    (hstep : ∀ {s a},I s → ok s a → Carries f I (next s a) (next' (f s) a))
    {t : τ} (h : Reaches next' ok' (f start) acts t) :
    ∃ s,I s ∧ Reaches next ok start acts s ∧ f s=t := by
  induction h with
  | start => exact ⟨start,h0,.start,rfl⟩
  | step a _ hadmitted hn ih =>
    obtain ⟨s,hs,hrun,rfl⟩ := ih
    have hadmits := (hok s a).mp hadmitted
    obtain ⟨hcommutes,hkept⟩ := hstep hs hadmits
    rw [hn] at hcommutes
    obtain ⟨s',hs',rfl⟩ := Option.map_eq_some_iff.mp hcommutes.symm
    exact ⟨s',hkept s' hs',hrun.step a hadmits hs',rfl⟩

end Images

/-- A relation kept by every step, with one step of the other machine or none,
takes every run to a run of the other machine. -/
theorem Reaches.simulated {τ ℓ' : Type*} {next : σ → ℓ → Option σ} {ok : σ → ℓ → Prop}
    {next' : τ → ℓ' → Option τ} {R : σ → τ → Prop} {start : σ} {start' : τ} {acts : List ℓ} {s : σ}
    (h0 : R start start')
    (hstep : ∀ {s t a s'},R s t → ok s a → next s a=some s' →
      R s' t ∨ ∃ a' t',next' t a'=some t' ∧ R s' t')
    (h : Reaches next ok start acts s) :
    ∃ acts' t,Reaches next' Unrestricted start' acts' t ∧ R s t := by
  induction h with
  | start => exact ⟨[],start',.start,h0⟩
  | step a _ hok hn ih =>
    obtain ⟨acts',t,hrun,hR⟩ := ih
    rcases hstep hR hok hn with hstay|⟨a',t',hn',hmove⟩
    · exact ⟨acts',t,hrun,hstay⟩
    · exact ⟨acts'++[a'],t',hrun.step a' trivial hn',hmove⟩

/-- Replay a literal action list under a decidable guard. -/
def replay (next : σ → ℓ → Option σ) (ok : σ → ℓ → Prop) [∀ s a,Decidable (ok s a)] :
    σ → List ℓ → Option σ
  | s,[] => some s
  | s,a::acts => if ok s a then (next s a).bind fun s' => replay next ok s' acts else none

/-- An admitted and accepted first step is taken. -/
theorem replay_cons {next : σ → ℓ → Option σ} {ok : σ → ℓ → Prop} [∀ s a,Decidable (ok s a)]
    {s s' : σ} {a : ℓ} {acts : List ℓ} (hok : ok s a) (hn : next s a=some s') :
    replay next ok s (a::acts)=replay next ok s' acts := by
  rw [replay,if_pos hok,hn,Option.bind_some]

/-- A replay of two lists in a row replays the second where the first ended. -/
theorem replay_of_append (next : σ → ℓ → Option σ) (ok : σ → ℓ → Prop)
    [∀ s a,Decidable (ok s a)] (s : σ) (acts more : List ℓ) :
    replay next ok s (acts++more)=
      (replay next ok s acts).bind fun u => replay next ok u more := by
  induction acts generalizing s with
  | nil => rfl
  | cons a acts ih =>
    rw [List.cons_append,replay,replay]
    split
    · rw [Option.bind_assoc]
      exact congrArg _ (funext fun u => ih u)
    · rfl

/-- Replaying on from a reached state stays reached, and appends exactly the
replayed actions. -/
theorem Reaches.replay_append {next : σ → ℓ → Option σ} {ok : σ → ℓ → Prop}
    [∀ s a,Decidable (ok s a)] {start : σ} {done : List ℓ} {s : σ}
    (h : Reaches next ok start done s) {acts : List ℓ} {t : σ}
    (hr : replay next ok s acts=some t) : Reaches next ok start (done++acts) t := by
  induction acts generalizing s done with
  | nil =>
    simp only [replay,Option.some.injEq] at hr
    rw [List.append_nil,←hr]
    exact h
  | cons a acts ih =>
    rw [replay] at hr
    split at hr
    · rename_i hg
      cases hn : next s a with
      | none => simp only [hn,Option.bind_none,reduceCtorEq] at hr
      | some s' =>
        rw [hn,Option.bind_some] at hr
        have hs := ih (h.step a hg hn) hr
        rwa [List.append_assoc,List.singleton_append] at hs
    · cases hr

/-- A literal replay from the start is a guarded run, and what was observed at
its end is observed in the reached state. -/
theorem reaches_of_replay {β : Type*} (next : σ → ℓ → Option σ) (ok : σ → ℓ → Prop)
    [∀ s a,Decidable (ok s a)] (start : σ) (acts : List ℓ) (observe : σ → β) (seen : β)
    (hr : (replay next ok start acts).map observe=some seen) :
    ∃ s,Reaches next ok start acts s ∧ observe s=seen := by
  obtain ⟨s,hs,hseen⟩ := Option.map_eq_some_iff.mp hr
  exact ⟨s,Reaches.replay_append .start hs,hseen⟩

end FastEventSystem.GuardedRuns
