import FastEventSystem.ForwardRefinement

/-!
# What subscribers are shown and receives return

With copies of its own, a subscriber sees the values of the call and a receive
returns what its tuple had when it was dequeued; the refinement carries both
over to the code. What the tuple had then is what was sent, except for one
case: an `async_delay` leaves the entry it moved from in the vector until the
dispatch is over, so another receive can take the emptied entry again. And the
values of the call are not shown to everybody when an rvalue of another type
is converted for a handler in the last branch and that handler connects one
more, which is called by the last branch again.
-/

namespace FastEventSystem.ForwardReceipts

open MoveCells SyncRegistry ForwardedArguments ForwardRefinement GuardedRuns
open ChannelNetwork (Chan)

variable {η S F D α μ ν : Type*}

/-- What is known of a stored tuple: it has what was sent until it is taken,
and nothing from then on; an `async_fast` never keeps a taken one. -/
structure Kept (c : Chan S F D) (e : Entry α) : Prop where
  /-- Not taken yet. -/
  intact : e.taken=false → e.data=e.sent
  /-- Taken. -/
  emptied : e.taken=true → e.data=e.sent.map fun _ => none
  /-- No taken tuple is kept. -/
  fast : ∀ f,c=.fast f → e.taken=false

/-- A loop still has the values of its call, and a receive those of its tuple. -/
def Holds : Level (Copy α) η S F D α → Prop
  | .code _ _ => True
  | .loop c _ args atCall source =>
    args.map Copy.value=atCall ∧ ∀ e∈source,atCall=e.data ∧ Kept c e

/-- Subscribers were shown the values of the call, receives returned what they
took, and this goes on. -/
structure Faithful (s : State Unit (Copy α) η S F D α) : Prop where
  /-- All levels of the stack. -/
  stack : ∀ l∈s.stack,Holds l
  /-- All stored tuples. -/
  queue : ∀ c,∀ e∈s.queue c,Kept c e
  /-- All calls of subscribers. -/
  shown : ∀ v∈s.shown,v.seen=v.atCall
  /-- All returned receives. -/
  returned : ∀ r∈s.returned,r.result=r.entry.data ∧ Kept r.chan r.entry

/-- Taking a tuple out of an `async_delay` empties it in its place. -/
theorem kept_emptied {d : D} {e : Entry α} (h : Kept (.delay d : Chan S F D) e) :
    Kept (.delay d : Chan S F D) {e with data := e.data.map fun _ => none,taken := true} := by
  refine ⟨fun htaken => ?_,fun _ => ?_,fun f hf => ?_⟩
  · cases htaken
  · cases htaken : e.taken with
    | false => rw [h.intact htaken]
    | true => rw [h.emptied htaken,List.map_map]; rfl
  · cases hf

/-- Received from, a queue keeps its tuples as they were sent or marks them taken. -/
theorem kept_received {c : Chan S F D} {position : ℕ} {e : Entry α} {queue : List (Entry α)}
    (he : Kept c e) (h : ∀ x∈queue,Kept c x) : ∀ x∈received c position e queue,Kept c x := by
  intro x hx
  cases c with
  | sync | fast => exact h x (List.mem_of_mem_eraseIdx hx)
  | delay d =>
    rcases List.mem_or_eq_of_mem_set hx with hold|rfl
    · exact h x hold
    · exact kept_emptied he

/-- Popped, a queue keeps its other tuples. -/
theorem kept_popped {c : Chan S F D} {back : ℕ} {queue : List (Entry α)}
    (h : ∀ x∈queue,Kept c x) : ∀ x∈popped c back queue,Kept c x := by
  intro x hx
  cases c with
  | sync | fast => exact h x hx
  | delay d => exact h x (List.mem_of_mem_eraseIdx hx)

/-- A step of running code leaves the records alone. -/
theorem Faithful.of_stack {t t' : State Unit (Copy α) η S F D α} (h : Faithful t)
    (hqueue : t'.queue=t.queue) (hshown : t'.shown=t.shown) (hreturned : t'.returned=t.returned)
    (hstack : ∀ l∈t'.stack,Holds l) : Faithful t' :=
  ⟨hstack,hqueue ▸ h.queue,hshown ▸ h.shown,hreturned ▸ h.returned⟩

/-- The tuple an operation takes out of a queue. -/
def takes (queue : Chan S F D → List (Entry α)) : Op η S F D α → Option (Entry α)
  | .get c position => (queue c)[position]?
  | _ => none

/-- The tuple a step takes out of a queue. -/
def dequeued (s : State μ ν η S F D α) (a : Act η S F D α) : Option (Entry α) :=
  (performing s a).bind (takes s.queue)

variable [DecidableEq S] [DecidableEq F] [DecidableEq D]

/-- Tuples of one queue changed. -/
theorem kept_update {queue : Chan S F D → List (Entry α)} (h : ∀ c,∀ e∈queue c,Kept c e)
    {c : Chan S F D} {entries : List (Entry α)} (hnew : ∀ e∈entries,Kept c e) :
    ∀ d,∀ e∈Function.update queue c entries d,Kept d e := by
  intro d e he
  by_cases hd : d=c
  · subst hd
    rw [Function.update_self] at he
    exact hnew e he
  · rw [Function.update_of_ne hd] at he
    exact h d e he

section Performing

variable (st : Store μ ν α) (s : State μ ν η S F D α) (vars : List ν)
  (todo : Option (List (Op η S F D α))) (rest : List (Level ν η S F D α))

/-- What running code can do to stack, queues and records. -/
inductive Performed : Op η S F D α → State μ ν η S F D α → Prop
  /-- Its variables change, or a list of subscribers. -/
  | locally (o : Op η S F D α) (mem : μ) (registered : Chan S F D → List (Method η S F D))
      (vars' : List ν) (observed : List (Option α)) :
      Performed o {s with
        mem := mem
        registered := registered
        stack := .code vars' todo::rest
        observed := observed}
  /-- A loop begins. -/
  | called (c : S) (args : List Argument) (es : List ν) :
      Performed (.call c args) {s with
        stack := .loop (.sync c) 0 es (es.map (st.read s.mem)) none::.code vars todo::rest}
  /-- A tuple is stored. -/
  | sent (c : Chan S F D) (args : List ℕ) (data : List (Option α)) (mem : μ) (vars' : List ν) :
      Performed (.send c args) {s with
        mem := mem
        queue := Function.update s.queue c (s.queue c++[⟨data,data,false⟩])
        stack := .code vars' todo::rest}
  /-- A tuple is taken and its loop begins. -/
  | got (c : Chan S F D) (position : ℕ) (e : Entry α) (he : (s.queue c)[position]?=some e) :
      Performed (.get c position) {s with
        mem := (st.createAll s.mem e.data).1
        queue := Function.update s.queue c (received c position e (s.queue c))
        stack := .loop c 0 ((st.createAll s.mem e.data).2.map fun x => st.argument x true false)
          (((st.createAll s.mem e.data).2.map fun x => st.argument x true false).map
            (st.read (st.createAll s.mem e.data).1)) (some e)::.code vars todo::rest}

variable {st s vars todo rest}

/-- Running code does one of these things. -/
theorem performed_of_perform {s' : State μ ν η S F D α} {o : Op η S F D α}
    (hp : st.perform s vars todo rest o=some s') : Performed st s vars todo rest o s' := by
  cases o with
  | create v =>
    cases hp
    exact .locally ..
  | construct n moved =>
    simp only [Store.perform] at hp
    split at hp
    · cases hp
    · split at hp <;> cases hp
      · exact .locally ..
      · exact .locally ..
  | assign n v =>
    simp only [Store.perform] at hp
    split at hp
    · cases hp
    · split at hp <;> cases hp
      exact .locally ..
  | read n =>
    simp only [Store.perform] at hp
    split at hp <;> cases hp
    exact .locally ..
  | connect c m =>
    cases hp
    exact .locally ..
  | call c args =>
    obtain ⟨es,-,rfl⟩ := Option.map_eq_some_iff.mp hp
    exact .called c args es
  | send c args =>
    simp only [Store.perform] at hp
    split at hp
    · obtain ⟨r,-,rfl⟩ := Option.map_eq_some_iff.mp hp
      exact .sent c args r.1 r.2.1 r.2.2
    · cases hp
  | get c position =>
    simp only [Store.perform] at hp
    split at hp
    · obtain ⟨e,he,rfl⟩ := Option.map_eq_some_iff.mp hp
      exact .got c position e he
    · cases hp

end Performing

section Stepping

variable (st : Store μ ν α) (byValue : η → Bool) (s : State μ ν η S F D α)

/-- What a step can do to stack, queues and records. -/
inductive Stepped : Act η S F D α → State μ ν η S F D α → Prop
  /-- Running code does something. -/
  | performs {a : Act η S F D α} {o : Op η S F D α} {vars : List ν}
      {before todo : Option (List (Op η S F D α))} {rest : List (Level ν η S F D α)}
      {s' : State μ ν η S F D α} (htop : s.stack=.code vars before::rest)
      (hdequeued : dequeued s a=takes s.queue o)
      (hp : Performed st s vars todo rest o s') : Stepped a s'
  /-- A subscriber is called. -/
  | iterates {c : Chan S F D} {it : ℕ} {args : List ν} {atCall : List (Option α)}
      {source : Option (Entry α)} {rest : List (Level ν η S F D α)} (m : Method η S F D)
      (last : Bool) (todo : Option (List (Op η S F D α)))
      (htop : s.stack=.loop c it args atCall source::rest) :
      Stepped .iterate {s with
        mem := (st.call s.mem (passing byValue c m) last args).1
        stack := .code (st.call s.mem (passing byValue c m) last args).2 todo::
          .loop c it args atCall source::rest
        shown := ⟨c,it,(st.call s.mem (passing byValue c m) last args).2.map
          (st.read (st.call s.mem (passing byValue c m) last args).1),atCall⟩::s.shown}
  /-- `operator()` returns. -/
  | ends {c : Chan S F D} {it : ℕ} {args : List ν} {atCall : List (Option α)}
      {rest : List (Level ν η S F D α)} (back : ℕ)
      (htop : s.stack=.loop c it args atCall none::rest) :
      Stepped (.leaves back) {s with stack := rest}
  /-- A receive pops, if it does, and returns its tuple. -/
  | receives {c : Chan S F D} {it : ℕ} {args vars : List ν} {atCall : List (Option α)}
      {e : Entry α} {todo : Option (List (Op η S F D α))} {rest : List (Level ν η S F D α)}
      (back : ℕ) (htop : s.stack=.loop c it args atCall (some e)::.code vars todo::rest) :
      Stepped (.leaves back) {s with
        mem := (st.result s.mem args).1
        queue := Function.update s.queue c (popped c back (s.queue c))
        stack := .code (vars++(st.result s.mem args).2) todo::rest
        returned := ⟨c,e,(st.result s.mem args).2.map (st.read (st.result s.mem args).1)⟩::
          s.returned}
  /-- A subscriber returns and its loop goes on. -/
  | advances {vars args : List ν} {todo : Option (List (Op η S F D α))} {c : Chan S F D} {it : ℕ}
      {atCall : List (Option α)} {source : Option (Entry α)} {rest : List (Level ν η S F D α)}
      (htop : s.stack=.code vars todo::.loop c it args atCall source::rest) :
      Stepped .returns {s with stack := .loop c (it+1) args atCall source::rest}
  /-- A subscriber throws. -/
  | unwinds {vars args : List ν} {todo : Option (List (Op η S F D α))} {c : Chan S F D} {it : ℕ}
      {atCall : List (Option α)} {source : Option (Entry α)} {rest : List (Level ν η S F D α)}
      (htop : s.stack=.code vars todo::.loop c it args atCall source::rest) :
      Stepped .throws {s with stack := rest}

variable {st byValue s}

/-- A step does one of these things. -/
theorem stepped_of_next {s' : State μ ν η S F D α} {a : Act η S F D α}
    (hn : st.next byValue s a=some s') : Stepped st byValue s a s' := by
  cases a with
  | op o =>
    simp only [Store.next] at hn
    split at hn
    · rename_i vars rest htop
      exact .performs htop rfl (performed_of_perform hn)
    · cases hn
  | go =>
    simp only [Store.next] at hn
    split at hn
    · rename_i vars o todo rest htop
      refine .performs htop ?_ (performed_of_perform hn)
      simp only [dequeued,performing,htop,Option.bind_some]
    · cases hn
  | iterate =>
    simp only [Store.next] at hn
    split at hn
    · rename_i c it args atCall source rest htop
      obtain ⟨m,-,rfl⟩ := Option.map_eq_some_iff.mp hn
      exact .iterates m _ _ htop
    · cases hn
  | leaves back =>
    simp only [Store.next] at hn
    split at hn
    · rename_i htop
      split at hn <;> cases hn
      exact .ends back htop
    · rename_i htop
      split at hn <;> cases hn
      exact .receives back htop
    · cases hn
  | returns =>
    simp only [Store.next] at hn
    split at hn
    · rename_i htop
      split at hn <;> cases hn
      exact .advances htop
    · cases hn
  | throws =>
    simp only [Store.next] at hn
    split at hn <;> cases hn
    rename_i htop
    exact .unwinds htop

end Stepping

/-- Running code makes no loop that has other values than its call. -/
theorem faithful_perform {t t' : State Unit (Copy α) η S F D α} (h : Faithful t)
    {vars : List (Copy α)} {todo : Option (List (Op η S F D α))}
    {rest : List (Level (Copy α) η S F D α)} (hrest : ∀ l∈rest,Holds l) {o : Op η S F D α}
    (hp : Performed copies t vars todo rest o t') : Faithful t' := by
  have hcode : ∀ vars' : List (Copy α),∀ l∈(.code vars' todo::rest : List (Level (Copy α)
      η S F D α)),Holds l := fun _ => List.forall_mem_cons.mpr ⟨trivial,hrest⟩
  cases hp with
  | locally => exact h.of_stack rfl rfl rfl (hcode _)
  | called c args es =>
    refine h.of_stack rfl rfl rfl (List.forall_mem_cons.mpr ⟨⟨rfl,fun e he => ?_⟩,hcode _⟩)
    cases he
  | sent c args data =>
    refine ⟨hcode _,kept_update h.queue fun e he => ?_,h.shown,h.returned⟩
    rcases List.mem_append.mp he with hold|hnew
    · exact h.queue c e hold
    · cases List.mem_singleton.mp hnew
      refine ⟨fun _ => rfl,fun htaken => ?_,fun _ _ => rfl⟩
      cases htaken
  | got c position e he =>
    have hkept := h.queue c e (List.mem_of_getElem? he)
    have hvalues : ((copies.createAll t.mem e.data).2.map fun x =>
        (copies : Store Unit (Copy α) α).argument x true false).map Copy.value=e.data := by
      rw [show t.mem=() from rfl,copies_createAll,List.map_map,List.map_map]
      exact List.map_id _
    refine ⟨List.forall_mem_cons.mpr ⟨⟨rfl,fun x hx => ?_⟩,hcode _⟩,
      kept_update h.queue (kept_received hkept (h.queue c)),h.shown,h.returned⟩
    cases hx
    exact ⟨hvalues,hkept⟩

/-- Nothing a step does lets a loop, a call or a receive have other values. -/
theorem faithful_step {byValue : η → Bool} {t t' : State Unit (Copy α) η S F D α}
    {a : Act η S F D α} (h : Faithful t) (hn : copies.next byValue t a=some t') :
    Faithful t' := by
  have hstack := h.stack
  cases stepped_of_next hn with
  | performs htop _ hp =>
    rw [htop] at hstack
    exact faithful_perform h (List.forall_mem_cons.mp hstack).2 hp
  | @iterates c it args atCall source rest m last todo htop =>
    rw [htop] at hstack
    have hargs : args.map Copy.value=atCall := (List.forall_mem_cons.mp hstack).1.1
    refine ⟨List.forall_mem_cons.mpr ⟨trivial,hstack⟩,h.queue,
      List.forall_mem_cons.mpr ⟨?_,h.shown⟩,h.returned⟩
    rw [copies_call,←hargs,List.map_map]
    rfl
  | ends back htop =>
    rw [htop] at hstack
    exact h.of_stack rfl rfl rfl (List.forall_mem_cons.mp hstack).2
  | @receives c it args vars atCall e todo rest back htop =>
    rw [htop] at hstack
    obtain ⟨hloop,hrest⟩ := List.forall_mem_cons.mp hstack
    obtain ⟨hdata,hkept⟩ := hloop.2 e rfl
    refine ⟨List.forall_mem_cons.mpr ⟨trivial,(List.forall_mem_cons.mp hrest).2⟩,
      kept_update h.queue (kept_popped (h.queue c)),h.shown,
      List.forall_mem_cons.mpr ⟨⟨?_,hkept⟩,h.returned⟩⟩
    rw [copies_result,←hdata,←hloop.1,List.map_map]
    rfl
  | advances htop =>
    rw [htop] at hstack
    obtain ⟨hloop,hrest⟩ := List.forall_mem_cons.mp (List.forall_mem_cons.mp hstack).2
    exact h.of_stack rfl rfl rfl (List.forall_mem_cons.mpr ⟨hloop,hrest⟩)
  | unwinds htop =>
    rw [htop] at hstack
    exact h.of_stack rfl rfl rfl
      (List.forall_mem_cons.mp (List.forall_mem_cons.mp hstack).2).2

omit [DecidableEq S] [DecidableEq F] [DecidableEq D] in
/-- Nothing has happened yet. -/
theorem faithful_start : Faithful (.start () : State Unit (Copy α) η S F D α) := by
  refine ⟨fun l hl => ?_,fun c e he => ?_,fun v hv => ?_,fun r hr => ?_⟩
  · cases List.mem_singleton.mp hl
    exact trivial
  · cases he
  · cases hv
  · cases hr

/-- No receive finds a tuple whose elements an earlier one has moved out. -/
def DequeuesIntact (s : State μ ν η S F D α) (a : Act η S F D α) : Prop :=
  ∀ e∈dequeued s a,e.taken=false

instance (s : State μ ν η S F D α) (a : Act η S F D α) : Decidable (DequeuesIntact s a) :=
  inferInstanceAs (Decidable (∀ e∈dequeued s a,e.taken=false))

/-- The tuple of a receive in progress was not taken before. -/
def Untaken : Level ν η S F D α → Prop
  | .code _ _ => True
  | .loop _ _ _ _ source => ∀ e∈source,e.taken=false

/-- No receive, in progress or returned, took a tuple again. -/
structure Fresh (s : State μ ν η S F D α) : Prop where
  /-- In progress. -/
  stack : ∀ l∈s.stack,Untaken l
  /-- Returned. -/
  returned : ∀ r∈s.returned,r.entry.taken=false

/-- An operation of running code begins no receive of a taken tuple. -/
theorem fresh_perform {st : Store μ ν α} {s s' : State μ ν η S F D α} (h : Fresh s)
    {vars : List ν} {todo : Option (List (Op η S F D α))} {rest : List (Level ν η S F D α)}
    (hrest : ∀ l∈rest,Untaken l) {o : Op η S F D α} (htakes : ∀ e∈takes s.queue o,e.taken=false)
    (hp : Performed st s vars todo rest o s') : Fresh s' := by
  have hcode : ∀ vars' : List ν,∀ l∈(.code vars' todo::rest : List (Level ν η S F D α)),
      Untaken l := fun _ => List.forall_mem_cons.mpr ⟨trivial,hrest⟩
  cases hp with
  | locally => exact ⟨hcode _,h.returned⟩
  | called c args es =>
    refine ⟨List.forall_mem_cons.mpr ⟨fun e he => ?_,hcode _⟩,h.returned⟩
    cases he
  | sent => exact ⟨hcode _,h.returned⟩
  | got c position e he =>
    refine ⟨List.forall_mem_cons.mpr ⟨fun x hx => ?_,hcode _⟩,h.returned⟩
    cases hx
    exact htakes e he

/-- A step which takes no taken tuple leaves none in a receive. -/
theorem fresh_step {st : Store μ ν α} {byValue : η → Bool} {s s' : State μ ν η S F D α}
    {a : Act η S F D α} (h : Fresh s) (hok : DequeuesIntact s a)
    (hn : st.next byValue s a=some s') : Fresh s' := by
  have hstack := h.stack
  cases stepped_of_next hn with
  | performs htop hdequeued hp =>
    rw [htop] at hstack
    rw [DequeuesIntact,hdequeued] at hok
    exact fresh_perform h (List.forall_mem_cons.mp hstack).2 hok hp
  | iterates m last todo htop =>
    rw [htop] at hstack
    exact ⟨List.forall_mem_cons.mpr ⟨trivial,hstack⟩,h.returned⟩
  | ends back htop =>
    rw [htop] at hstack
    exact ⟨(List.forall_mem_cons.mp hstack).2,h.returned⟩
  | @receives c it args vars atCall e todo rest back htop =>
    rw [htop] at hstack
    obtain ⟨hloop,hrest⟩ := List.forall_mem_cons.mp hstack
    exact ⟨List.forall_mem_cons.mpr ⟨trivial,(List.forall_mem_cons.mp hrest).2⟩,
      List.forall_mem_cons.mpr ⟨hloop e rfl,h.returned⟩⟩
  | advances htop =>
    rw [htop] at hstack
    obtain ⟨hloop,hrest⟩ := List.forall_mem_cons.mp (List.forall_mem_cons.mp hstack).2
    exact ⟨List.forall_mem_cons.mpr ⟨hloop,hrest⟩,h.returned⟩
  | unwinds htop =>
    rw [htop] at hstack
    exact ⟨(List.forall_mem_cons.mp (List.forall_mem_cons.mp hstack).2).2,h.returned⟩

omit [DecidableEq S] [DecidableEq F] [DecidableEq D] in
/-- Nothing has been taken yet. -/
theorem fresh_start (mem : μ) : Fresh (.start mem : State μ ν η S F D α) := by
  refine ⟨fun l hl => ?_,fun r hr => ?_⟩
  · cases List.mem_singleton.mp hl
    exact trivial
  · cases hr

/-- Every receive returned the payload which was sent. -/
def ReturnsSent (s : State μ ν η S F D α) : Prop := ∀ r∈s.returned,r.result=r.entry.sent

omit [DecidableEq S] [DecidableEq F] [DecidableEq D] in
/-- An emptied tuple is what was sent only if nothing was sent. -/
theorem Kept.emptied_eq_sent_iff {c : Chan S F D} {e : Entry α} (h : Kept c e)
    (htaken : e.taken=true) : e.data=e.sent ↔ ∀ v∈e.sent,v=none := by
  rw [h.emptied htaken,List.map_eq_iff]
  constructor
  · intro hsame v hv
    obtain ⟨i,hi⟩ := List.mem_iff_getElem?.mp hv
    have hnone := hsame i
    rw [hi,Option.map_some] at hnone
    exact Option.some.inj hnone
  · intro hnone i
    cases hi : e.sent[i]? with
    | none => rfl
    | some v => rw [hnone v (List.mem_of_getElem? hi)]; rfl

/-- Every subscriber was shown the values the arguments had at the call. -/
def ShowsCalled (s : State μ ν η S F D α) : Prop := ∀ v∈s.shown,v.seen=v.atCall

/-- No rvalue argument of another type, and no receive of a taken tuple. -/
def Careful (s : State μ ν η S F D α) (a : Act η S F D α) : Prop :=
  Typed s a ∧ DequeuesIntact s a

instance (s : State μ ν η S F D α) (a : Act η S F D α) : Decidable (Careful s a) :=
  inferInstanceAs (Decidable (Typed s a ∧ DequeuesIntact s a))

/-- Forwarding to the last subscriber is copying to all of them. Take any code
which connects, calls, sends and receives, with handlers by value and by const
reference that do anything to their own variables, with the lambdas of the
source between channels, with lvalue and rvalue arguments, lvalues of other
types among them, and with lists that grow while they are walked. Its runs are
exactly the runs in which every subscriber has copies of its own, with the same
records of calls, reads and receives and the same stored tuples. Every
subscriber is shown the values the arguments had when `operator()` was called.
A receive returns what the tuple had when it was dequeued, whatever its
subscribers did. For an `async_fast` that is what was sent, and so it is for an
`async_delay` in a run where no receive finds an entry which was taken before;
such an entry has lost every value. -/
theorem forwarding_is_copying (byValue : η → Bool) {acts : List (Act η S F D α)}
    {s : State (Memory α) Expr η S F D α}
    (h : Reaches (cells.next byValue) Typed (.start []) acts s) :
    (∃ t,Reaches (copies.next byValue) Typed (.start ()) acts t ∧ t.shown=s.shown ∧
      t.observed=s.observed ∧ t.returned=s.returned ∧ t.queue=s.queue ∧
      t.registered=s.registered) ∧
    (∀ more t,Reaches (copies.next byValue) Typed (.start ()) more t →
      ∃ u : State (Memory α) Expr η S F D α,
        Reaches (cells.next byValue) Typed (.start []) more u ∧ t.shown=u.shown ∧
        t.observed=u.observed ∧ t.returned=u.returned ∧ t.queue=u.queue ∧
        t.registered=u.registered) ∧
    ShowsCalled s ∧
    (∀ r∈s.returned,r.result=r.entry.data) ∧
    (∀ r∈s.returned,∀ f,r.chan=.fast f → r.result=r.entry.sent) ∧
    (Reaches (cells.next byValue) Careful (.start []) acts s → ReturnsSent s) ∧
    ∀ r∈s.returned,r.entry.taken=true → (r.result=r.entry.sent ↔ ∀ v∈r.entry.sent,v=none) := by
  have hfaithful : Faithful (valued s) :=
    (valued_reaches h).invariant faithful_start fun ht _ hn => faithful_step ht hn
  refine ⟨⟨valued s,valued_reaches h,rfl,rfl,rfl,rfl,rfl⟩,fun more t ht => ?_,hfaithful.shown,
    fun r hr => (hfaithful.returned r hr).1,fun r hr f hf => ?_,fun hguarded r hr => ?_,
    fun r hr htaken => ?_⟩
  · obtain ⟨u,hu,rfl⟩ := exists_valued ht
    exact ⟨u,hu,rfl,rfl,rfl,rfl,rfl⟩
  · obtain ⟨hresult,hkept⟩ := hfaithful.returned r hr
    exact hresult.trans (hkept.intact (hkept.fast f hf))
  · have hfresh : Fresh s :=
      hguarded.invariant (fresh_start []) fun hs hok hn => fresh_step hs hok.2 hn
    obtain ⟨hresult,hkept⟩ := hfaithful.returned r hr
    exact hresult.trans (hkept.intact (hfresh.returned r hr))
  · obtain ⟨hresult,hkept⟩ := hfaithful.returned r hr
    rw [hresult]
    exact hkept.emptied_eq_sent_iff htaken

/-- A `sync` has a handler by value and a lambda which sends to a queue. It is
called with an rvalue and with an lvalue of another type. The first handler
connects a third one, by const reference, and moves its own parameter away; so
the second call is a copy and only the third takes the last branch. The sent
tuple is received. -/
def growingRun : List (Act Bool ℕ ℕ ℕ ℕ) :=
  [.op (.create 5),.op (.create 6),.op (.connect (.sync 0) (.functor true)),
    .op (.connect (.sync 0) (.fast 0)),.op (.connect (.fast 0) (.functor true)),
    .op (.call 0 [⟨0,true,false⟩,⟨1,false,true⟩]),.iterate,
    .op (.connect (.sync 0) (.functor false)),.op (.construct 0 true),.op (.read 0),.returns,
    .iterate,.go,.returns,.iterate,.op (.read 1),.returns,.leaves 0,.op (.get (.fast 0) 0),
    .iterate,.op (.construct 0 true),.returns,.leaves 0,.op (.read 0),.op (.read 1)]

/-- All three subscribers are shown the five and the six, the receive returns
them, and the caller still has both. -/
theorem forwarding_is_copying_growing :
    ∃ s : State (Memory ℕ) Expr Bool ℕ ℕ ℕ ℕ,
      Reaches (cells.next id) Careful (.start []) growingRun s ∧
      s.shown=[⟨.fast 0,0,[some 5,some 6],[some 5,some 6]⟩,
        ⟨.sync 0,2,[some 5,some 6],[some 5,some 6]⟩,⟨.sync 0,1,[some 5,some 6],[some 5,some 6]⟩,
        ⟨.sync 0,0,[some 5,some 6],[some 5,some 6]⟩] ∧
      s.observed=[some 6,some 5,some 6,none] ∧
      s.returned=[⟨.fast 0,⟨[some 5,some 6],[some 5,some 6],false⟩,[some 5,some 6]⟩] ∧
      ShowsCalled s ∧ ReturnsSent s ∧
      ∃ t,Reaches (copies.next id) Typed (.start ()) growingRun t ∧ t.shown=s.shown := by
  obtain ⟨s,hs,hseen⟩ := reaches_of_replay (cells.next id) Careful
    (.start [] : State (Memory ℕ) Expr Bool ℕ ℕ ℕ ℕ) growingRun
    (fun s => (s.shown,s.observed,s.returned))
    ([⟨.fast 0,0,[some 5,some 6],[some 5,some 6]⟩,⟨.sync 0,2,[some 5,some 6],[some 5,some 6]⟩,
      ⟨.sync 0,1,[some 5,some 6],[some 5,some 6]⟩,⟨.sync 0,0,[some 5,some 6],[some 5,some 6]⟩],
      [some 6,some 5,some 6,none],
      [⟨.fast 0,⟨[some 5,some 6],[some 5,some 6],false⟩,[some 5,some 6]⟩]) (by decide)
  simp only [Prod.mk.injEq] at hseen
  have hrun := forwarding_is_copying id (hs.mono fun _ _ hok => hok.1)
  obtain ⟨t,ht,hshown,-⟩ := hrun.1
  exact ⟨s,hs,hseen.1,hseen.2.1,hseen.2.2,hrun.2.2.1,hrun.2.2.2.2.2.1 hs,t,ht,hshown⟩

/-- Two tuples are sent to an `async_delay`, the second one more urgent. While
it is dispatched the handler receives too, and the entry at the back is the
emptied one which was not popped yet. -/
def nestedRun : List (Act Bool ℕ ℕ ℕ ℕ) :=
  [.op (.connect (.delay 0) (.functor true)),.op (.create 7),.op (.create 8),
    .op (.send (.delay 0) [0]),.op (.send (.delay 0) [1]),.op (.get (.delay 0) 1),.iterate,
    .op (.get (.delay 0) 1),.iterate,.returns,.leaves 1,.returns,.leaves 0]

/-- A `sync` is called with an rvalue of another type. Its only handler connects
a second one, so both are called by the last branch. -/
def convertedRun : List (Act Bool ℕ ℕ ℕ ℕ) :=
  [.op (.create 5),.op (.connect (.sync 0) (.functor false)),.op (.call 0 [⟨0,true,true⟩]),
    .iterate,.op (.connect (.sync 0) (.functor false)),.returns,.iterate]

/-- The inner receive returns an empty tuple, and the seven is never received.
The conversion for the first handler empties the argument, and the second
handler is shown nothing, where a copy of its own shows the five. -/
theorem emptied_values_handed_on :
    (∃ s : State (Memory ℕ) Expr Bool ℕ ℕ ℕ ℕ,
      Reaches (cells.next id) Typed (.start []) nestedRun s ∧
      s.returned=[⟨.delay 0,⟨[some 8],[some 8],false⟩,[some 8]⟩,
        ⟨.delay 0,⟨[none],[some 8],true⟩,[none]⟩] ∧ s.queue (.delay 0)=[] ∧ ¬ReturnsSent s) ∧
    (∃ s : State (Memory ℕ) Expr Bool ℕ ℕ ℕ ℕ,
      Reaches (cells.next id) DequeuesIntact (.start []) convertedRun s ∧
      s.shown=[⟨.sync 0,1,[none],[some 5]⟩,⟨.sync 0,0,[some 5],[some 5]⟩] ∧ ¬ShowsCalled s) ∧
    ∃ t : State Unit (Copy ℕ) Bool ℕ ℕ ℕ ℕ,
      Reaches (copies.next id) DequeuesIntact (.start ()) convertedRun t ∧
      t.shown=[⟨.sync 0,1,[some 5],[some 5]⟩,⟨.sync 0,0,[some 5],[some 5]⟩] := by
  refine ⟨?_,?_,?_⟩
  · obtain ⟨s,hs,hseen⟩ := reaches_of_replay (cells.next id) Typed
      (.start [] : State (Memory ℕ) Expr Bool ℕ ℕ ℕ ℕ) nestedRun
      (fun s => (s.returned,s.queue (.delay 0)))
      ([⟨.delay 0,⟨[some 8],[some 8],false⟩,[some 8]⟩,
        ⟨.delay 0,⟨[none],[some 8],true⟩,[none]⟩],[]) (by decide)
    simp only [Prod.mk.injEq] at hseen
    refine ⟨s,hs,hseen.1,hseen.2,fun hsent => ?_⟩
    have hinner := hsent ⟨.delay 0,⟨[none],[some 8],true⟩,[none]⟩ (by rw [hseen.1]; simp)
    cases hinner
  · obtain ⟨s,hs,hshown⟩ := reaches_of_replay (cells.next id) DequeuesIntact
      (.start [] : State (Memory ℕ) Expr Bool ℕ ℕ ℕ ℕ) convertedRun State.shown
      [⟨.sync 0,1,[none],[some 5]⟩,⟨.sync 0,0,[some 5],[some 5]⟩] (by decide)
    refine ⟨s,hs,hshown,fun hcalled => ?_⟩
    have hsecond := hcalled ⟨.sync 0,1,[none],[some 5]⟩ (by rw [hshown]; simp)
    cases hsecond
  · exact reaches_of_replay (copies.next id) DequeuesIntact
      (.start () : State Unit (Copy ℕ) Bool ℕ ℕ ℕ ℕ) convertedRun State.shown
      [⟨.sync 0,1,[some 5],[some 5]⟩,⟨.sync 0,0,[some 5],[some 5]⟩] (by decide)

end FastEventSystem.ForwardReceipts
