import FastEventSystem.FastAccounting

/-!
# Polling consumers of one fast channel

Consumers call `update` and the timed `wait` only. Both read the count before
they enter `get`, and other threads run between that reading and the decrement
at `_sem.wait`. The reading is worth something only while the count exceeds
the consumers which have already entered: a reserve for each of them is then
left whatever the others do, and without it some order of the others' passes
leaves one of them waiting.
-/

namespace FastEventSystem.FastPolling

open CountingSemaphore FastChannel FastThreads GuardedRuns PartyTotals

variable {ι α : Type*}

/-- A consumer at `_sem.wait()`. -/
def entered : Frame α → ℕ
  | .atSem _ => 1
  | _ => 0

/-- Consumers which entered `get` and have not passed the semaphore. -/
def entering [Fintype ι] (s : State ι α) : ℕ := stackTotal (fun _ _ f => entered f) s.stack

/-- Receives are made by `update` and by `wait` with a positive timeout. -/
def polls : Act ι α → Bool
  | .get _ _ => false
  | .wait _ timeout _ _ => decide (timeout > 0)
  | _ => true

/-- The step reads a positive count in `empty()` and enters `get`. -/
def enters (s : State ι α) : Act ι α → Bool
  | .update i => mayCall (s.stack i) && !s.chan.empty
  | .poll i reading =>
    match s.stack i with
    | .polling mark _::_ => decide (reading ≤ mark) && !s.chan.empty
    | _ => false
  | _ => false

/-- Producers and polling consumers only. -/
def Polling (_ : State ι α) (a : Act ι α) : Prop := polls a=true

/-- A consumer enters only past a count above the consumers already entering. -/
def Spared [Fintype ι] (s : State ι α) (a : Act ι α) : Prop :=
  Polling s a ∧ (enters s a=true → entering s < s.chan.size)

/-- A consumer which entered `get` stands at the semaphore with nothing to take. -/
def Stuck (s : State ι α) : Prop := ∃ i yields,.atSem yields∈s.stack i ∧ s.chan.size=0

instance (s : State ι α) (a : Act ι α) : Decidable (Polling s a) :=
  inferInstanceAs (Decidable (polls a=true))

instance [Fintype ι] (s : State ι α) (a : Act ι α) : Decidable (Spared s a) :=
  inferInstanceAs (Decidable (_ ∧ _))

/-- Calls stand on top of running handlers only. -/
def Nested (s : State ι α) : Prop := ∀ i,∀ f∈(s.stack i).tail,∃ t,f=.dispatching t

section Steps

variable [DecidableEq ι]

/-- Handlers alone carry further calls, whatever step is taken. -/
theorem nested_step {s s' : State ι α} {a : Act ι α} (hs : Nested s)
    (h : next s a=some s') : Nested s' := by
  obtain ⟨st,hmoves,hstack⟩ := next_moves h
  intro j g hg
  rw [hstack] at hg
  by_cases hj : j=actor a
  · subst hj
    rw [Function.update_self] at hg
    have hold := hs (actor a)
    cases hmoves with
    | stays => exact hold g hg
    | calls f hmay =>
      -- a call stands on the thread's own code or on a running handler
      rw [List.tail_cons] at hg
      cases htop : s.stack (actor a) with
      | nil =>
        rw [htop] at hg
        exact False.elim (List.not_mem_nil hg)
      | cons top rest =>
        rw [htop] at hg hmay hold
        rcases List.mem_cons.mp hg with rfl|hrest
        · cases g with
          | dispatching t => exact ⟨t,rfl⟩
          | notifying | polling | atSem | looping | passed | taken => contradiction
        · exact hold g hrest
    | turns f f' rest htop =>
      rw [htop] at hold
      exact hold g hg
    | leaves f rest htop =>
      rw [htop] at hold
      exact hold g (List.mem_of_mem_tail hg)
  · rw [Function.update_of_ne hj] at hg
    exact hs j g hg

/-- Every state of every run has its calls on top of handlers. -/
theorem nested_of_reaches {ok : State ι α → Act ι α → Prop} {acts : List (Act ι α)}
    {s : State ι α} (h : Reaches next ok .start acts s) : Nested s :=
  h.invariant (fun _ _ hf => False.elim (List.not_mem_nil hf)) fun hi _ hn => nested_step hi hn

variable [Fintype ι]

/-- A call counts its own frame. -/
theorem entering_call {s s' : State ι α} {i : ι} {f : Frame α} (h : s.call i f=some s') :
    entering s'=entering s+entered f ∧ s'.chan=s.chan := by
  unfold State.call at h
  split at h <;> cases h
  exact ⟨stackTotal_push _ _ _ _,rfl⟩

/-- A step inside a call exchanges the frame counted. -/
theorem entering_turn {s : State ι α} {i : ι} {f : Frame α} {rest : List (Frame α)}
    (hs : s.stack i=f::rest) (g : Frame α) :
    entering (s.goto i (g::rest))+entered f=entering s+entered g :=
  stackTotal_turn _ _ _ hs _

/-- A return takes its frame from the count. -/
theorem entering_pop {s : State ι α} {i : ι} {f : Frame α} {rest : List (Frame α)}
    (hs : s.stack i=f::rest) : entering (s.goto i rest)+entered f=entering s :=
  stackTotal_pop _ _ _ hs

/-- Passing the semaphore takes one consumer and one unit of the count. -/
theorem entering_semWait {s s' : State ι α} {i : ι} (h : next s (.semWait i)=some s') :
    entering s'+1=entering s ∧ s'.chan.size+1=s.chan.size := by
  simp only [next] at h
  split at h
  · rename_i yields rest hs
    obtain ⟨chan,hw,rfl⟩ := Option.map_eq_some_iff.mp h
    obtain ⟨-,hsem⟩ := semWait_eq_some hw
    refine ⟨?_,hsem.symm⟩
    cases yields with
    | true => exact entering_turn hs .looping
    | false => exact entering_turn hs .passed
  · cases h

/-- An entry counts one consumer more and leaves the count. -/
theorem entering_of_enters {s s' : State ι α} {a : Act ι α} (henters : enters s a=true)
    (h : next s a=some s') : entering s'=entering s+1 ∧ s'.chan.size=s.chan.size := by
  cases a with
  | update i =>
    simp only [enters,Bool.and_eq_true,Bool.not_eq_true'] at henters
    simp only [next,henters.2,Bool.false_eq_true,if_false] at h
    obtain ⟨hc,hchan⟩ := entering_call h
    exact ⟨hc,by rw [hchan]⟩
  | poll i reading =>
    simp only [enters] at henters
    split at henters
    · rename_i mark yields rest hs
      simp only [Bool.and_eq_true,decide_eq_true_eq,Bool.not_eq_true'] at henters
      simp only [next,hs,if_pos henters.1,henters.2,Bool.false_eq_true,if_false,
        Option.some.injEq] at h
      subst h
      exact ⟨entering_turn hs (.atSem yields),rfl⟩
    · cases henters
  | enqueue | notify | get | wait | semWait | testCount | waitDequeue | handOver | returns
  | throws => cases henters

/-- No other step of producers and polling consumers uses the reserve. -/
theorem reserve_step {s s' : State ι α} {a : Act ι α} (hp : polls a=true)
    (henters : enters s a=false) (h : next s a=some s') :
    entering s'+s.chan.size ≤ entering s+s'.chan.size := by
  cases a with
  | enqueue i data =>
    simp only [next,Option.map_eq_some_iff] at h
    obtain ⟨u,hu,rfl⟩ := h
    have hc := (entering_call hu).1
    simp only [entered] at hc
    change entering u+s.chan.size ≤ entering s+s.chan.size
    omega
  | notify i =>
    simp only [next] at h
    split at h <;> cases h
    rename_i rest hs
    have hc := entering_pop hs
    simp only [entered] at hc
    change entering (s.goto i rest)+s.chan.size ≤ entering s+(s.chan.size+1)
    omega
  | get i yields => contradiction
  | update i =>
    simp only [next] at h
    split at h
    · split at h <;> cases h
      omega
    · rename_i hempty
      unfold State.call at h
      split at h
      · rename_i hmay
        simp only [enters,hmay,hempty,Bool.not_false,Bool.and_self,reduceCtorEq] at henters
      · cases h
  | wait i timeout reading yields =>
    have htimeout : timeout > 0 := of_decide_eq_true hp
    simp only [next,if_pos htimeout] at h
    obtain ⟨hc,hchan⟩ := entering_call h
    rw [hc,hchan]
    simp only [entered]
    omega
  | poll i reading =>
    simp only [next] at h
    split at h
    · rename_i mark yields rest hs
      split at h
      · rename_i hmark
        split at h <;> cases h
        · omega
        · rename_i hempty
          simp only [enters,hs,hmark,hempty,decide_true,Bool.not_false,Bool.and_self,
            reduceCtorEq] at henters
      · cases h
        have hc := entering_pop hs
        simp only [entered] at hc
        change entering (s.goto i rest)+s.chan.size ≤ entering s+s.chan.size
        omega
    · cases h
  | semWait i =>
    obtain ⟨hc,hsize⟩ := entering_semWait h
    omega
  | testCount i =>
    simp only [next] at h
    split at h
    · rename_i rest hs
      split at h <;> cases h
      · omega
      · have hc := entering_turn hs .passed
        simp only [entered] at hc
        change entering (s.goto i (.passed::rest))+s.chan.size ≤ entering s+s.chan.size
        omega
    · cases h
  | waitDequeue i position =>
    simp only [next] at h
    split at h
    · rename_i rest hs
      obtain ⟨⟨t,chan⟩,hd,rfl⟩ := Option.map_eq_some_iff.mp h
      have hsem := (waitDequeue_eq_some hd).2
      have hc := entering_turn hs (.taken t)
      simp only [entered] at hc
      change entering (s.goto i (.taken t::rest))+s.chan.sem.len ≤ entering s+chan.sem.len
      rw [hsem]
      omega
    · cases h
  | handOver i =>
    simp only [next] at h
    split at h <;> cases h
    rename_i t rest hs
    have hc := entering_turn hs (.dispatching t)
    simp only [entered] at hc
    change entering (s.goto i (.dispatching t::rest))+s.chan.size ≤ entering s+s.chan.size
    omega
  | returns i | throws i =>
    simp only [next] at h
    split at h <;> cases h
    rename_i rest hs
    have hc := entering_pop hs
    simp only [entered] at hc
    change entering (s.goto i rest)+s.chan.size ≤ entering s+s.chan.size
    omega

/-- The count covers every consumer which has entered. -/
theorem reserve_of_reaches {acts : List (Act ι α)} {s : State ι α}
    (h : Reaches next Spared .start acts s) : entering s ≤ s.chan.size := by
  induction h with
  | start =>
    have hzero : entering (State.start : State ι α)=0 := total_eq_zero _ _ fun _ => rfl
    omega
  | @step _ s _ a _ hok hn ih =>
    cases henters : enters s a with
    | true =>
      have hlt := hok.2 henters
      have hstep := entering_of_enters henters hn
      omega
    | false =>
      have hstep := reserve_step hok.1 henters hn
      omega

omit [DecidableEq ι] in
/-- A positive count of entering consumers has a consumer in it. -/
theorem exists_entered {s : State ι α} (h : 0 < entering s) :
    ∃ i yields,.atSem yields∈s.stack i := by
  by_contra hnone
  have hstack : ∀ i,∀ st : List (Frame α),(∀ f∈st,f∈s.stack i) →
      stackWeight (fun _ f => entered f) st=0 := by
    intro i st
    induction st with
    | nil => exact fun _ => rfl
    | cons f rest ih =>
      intro hmem
      have hrest := ih fun g hg => hmem g (List.mem_cons_of_mem _ hg)
      have hf : entered f=0 := by
        cases f with
        | atSem yields => exact False.elim (hnone ⟨i,yields,hmem _ List.mem_cons_self⟩)
        | notifying | polling | looping | passed | taken | dispatching => rfl
      rw [stackWeight,hf,hrest]
  have hzero : entering s=0 := total_eq_zero _ _ fun i => hstack i _ fun _ hf => hf
  omega

/-- With more consumers entered than units to take, letting them pass one after
the other uses the count up and leaves one of them standing. -/
theorem exists_stuck {n : ℕ} {acts : List (Act ι α)} {s : State ι α}
    (h : Reaches next Polling .start acts s) (hn : s.chan.size=n) (hlt : n < entering s) :
    ∃ more u,Reaches next Polling .start (acts++more) u ∧ Stuck u := by
  induction n generalizing acts s with
  | zero =>
    obtain ⟨i,yields,hmem⟩ := exists_entered hlt
    exact ⟨[],s,by rwa [List.append_nil],i,yields,hmem,hn⟩
  | succ n ih =>
    obtain ⟨i,yields,hmem⟩ := exists_entered (Nat.zero_lt_of_lt hlt)
    -- a consumer at the semaphore is the top call of its thread
    obtain ⟨rest,htop⟩ : ∃ rest,s.stack i=.atSem yields::rest := by
      cases hstack : s.stack i with
      | nil =>
        rw [hstack] at hmem
        exact False.elim (List.not_mem_nil hmem)
      | cons f rest =>
        rw [hstack] at hmem
        rcases List.mem_cons.mp hmem with rfl|hrest
        · exact ⟨rest,rfl⟩
        · obtain ⟨t,ht⟩ := nested_of_reaches h i _ (by rw [hstack]; exact hrest)
          cases ht
    obtain ⟨sem,hwait⟩ : ∃ sem,s.chan.sem.wait=some sem :=
      ⟨⟨n⟩,Semaphore.wait_eq_some.mpr hn⟩
    obtain ⟨s',hs'⟩ : ∃ s',next s (.semWait i)=some s' := by
      simp only [next,htop,AsyncFast.semWait,hwait,Option.map_some]
      exact ⟨_,rfl⟩
    obtain ⟨hent,hsize⟩ := entering_semWait hs'
    have hpolls : Polling s (.semWait i) := rfl
    obtain ⟨more,u,hu,hstuck⟩ := ih (h.step _ hpolls hs') (by omega) (by omega)
    rw [List.append_assoc,List.singleton_append] at hu
    exact ⟨.semWait i::more,u,hu,hstuck⟩

/-- Polling between threads. While every consumer enters `get` past a count
above the consumers already entering, no consumer stands at the semaphore with
the count at zero, in any interleaving of any producers and consumers. One
entry past a smaller count is enough for an interleaving which leaves a
consumer standing there. -/
theorem polling_never_waits_iff_spared :
    (∀ {acts : List (Act ι α)} {s : State ι α},Reaches next Spared .start acts s → ¬Stuck s) ∧
    ∀ {acts : List (Act ι α)} {s s' : State ι α} {a : Act ι α},
      Reaches next Polling .start acts s → Polling s a → next s a=some s' →
        enters s a=true → s.chan.size ≤ entering s →
          ∃ more u,Reaches next Polling .start (acts++a::more) u ∧ Stuck u := by
  refine ⟨?_,?_⟩
  · rintro acts s h ⟨i,yields,hmem,hzero⟩
    have hone : entered (.atSem yields : Frame α) ≤ entering s := le_stackTotal entered hmem
    have hle := reserve_of_reaches h
    simp only [entered] at hone
    omega
  · intro acts s s' a h hp hn henters hle
    obtain ⟨hent,hsize⟩ := entering_of_enters henters hn
    obtain ⟨more,u,hu,hstuck⟩ := exists_stuck (h.step a hp hn) rfl (by omega)
    rw [List.append_assoc,List.singleton_append] at hu
    exact ⟨more,u,hu,hstuck⟩

end Steps

/-- Two tuples are stored; one consumer enters by `update` and another by the
timed `wait`, and the first passes the semaphore. -/
def sparedRun : List (Act (Fin 3) ℕ) :=
  [.wait 2 50 100 false,.enqueue 0 7,.notify 0,.enqueue 0 8,.notify 0,.update 1,.poll 2 120,
    .semWait 1]

/-- Past the other consumer's pass, the second consumer still has a unit. -/
theorem polling_never_waits_two_stored :
    ∃ s : State (Fin 3) ℕ,Reaches next Spared .start sparedRun s ∧
      s.stack 2=[.atSem false] ∧ s.chan.size=1 ∧ ¬Stuck s := by
  obtain ⟨s,hs,hseen⟩ := reaches_of_replay next Spared .start sparedRun
    (fun s => (s.stack 2,s.chan.size)) ([.atSem false],1) (by decide)
  simp only [Prod.mk.injEq] at hseen
  exact ⟨s,hs,hseen.1,hseen.2,polling_never_waits_iff_spared.1 hs⟩

/-- One tuple is stored; two consumers call `update` and both read the count
before the first of them passes the semaphore. -/
def overlappingUpdates : List (Act (Fin 3) ℕ) :=
  [.enqueue 0 7,.notify 0,.update 1,.update 2,.semWait 1]

/-- The second `update` stands at the semaphore with the count at zero. -/
theorem overlapping_updates_wait :
    ¬∀ (acts : List (Act (Fin 3) ℕ)) (s : State (Fin 3) ℕ),
      Reaches next Polling .start acts s →
        ∀ i yields,.atSem yields∈s.stack i → s.chan.size≠0 := by
  intro hclaim
  obtain ⟨s,hs,hseen⟩ := reaches_of_replay next Polling .start overlappingUpdates
    (fun s => (s.stack 2,s.chan.size)) ([.atSem false],0) (by decide)
  simp only [Prod.mk.injEq] at hseen
  exact hclaim _ s hs 2 false (by rw [hseen.1]; exact List.mem_cons_self) hseen.2

end FastEventSystem.FastPolling
