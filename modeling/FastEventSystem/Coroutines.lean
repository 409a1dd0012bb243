import FastEventSystem.DelayChannel
import FastEventSystem.FastChannel
import FastEventSystem.GuardedRuns
import FastEventSystem.PartyTotals

/-!
# Coroutines of one thread on one channel

`get(yield)` and `wait(yield,timeout)` read alike in both asynchronous classes
up to the test of their loop, the taking of a message and what follows its
handlers; a channel is given by these. One coroutine of the thread runs at a
time, and control passes to another one only where the running one yields: in
its own code, in a handler, or in the loop of `_get(yield)`. Nothing else can
run while it waits at the semaphore or turns in the timed loop of `wait`.
-/

namespace FastEventSystem.Coroutines

open CountingSemaphore GuardedRuns PartyTotals

/-- What the receives of a channel use, with what they rely on. -/
structure Channel (S C M : Type*) where
  /-- A freshly constructed channel. -/
  fresh : C
  /-- `operator()`. -/
  send : S → C → C
  /-- The count of the semaphore. -/
  size : C → ℕ
  /-- Entries in the queue. -/
  stored : C → ℕ
  /-- Pass `_sem.wait()`; refused while the count is zero. -/
  semWait : C → Option C
  /-- The condition of the loop of `_get(yield)` at a clock reading; without a
  value where the test is undefined. -/
  unready : C → ℤ → Option Bool
  /-- Take a message out; the queue may choose which. -/
  take : ℕ → C → Option (M×C)
  /-- What follows the handlers. -/
  finish : C → Option C
  /-- Entries a call keeps in the queue while its handlers run. -/
  kept : ℕ
  /-- A fresh channel is empty. -/
  size_fresh : size fresh=0
  /-- A send adds one to the count. -/
  size_send : ∀ x c,size (send x c)=size c+1
  /-- A send adds one entry. -/
  stored_send : ∀ x c,stored (send x c)=stored c+1
  /-- A positive count lets a call pass. -/
  semWait_pass : ∀ c,0 < size c → (semWait c).isSome=true
  /-- A pass takes one of the count and no entry. -/
  semWait_spec : ∀ c c',semWait c=some c' → size c=size c'+1 ∧ stored c'=stored c
  /-- With an entry the loop can be tested. -/
  unready_spec : ∀ c reading,0 < stored c → (unready c reading).isSome=true
  /-- With an entry a message can be taken. -/
  take_first : ∀ c,0 < stored c → (take 0 c).isSome=true
  /-- Taking leaves the count, and the entry only while it is kept. -/
  take_spec : ∀ k c t c',take k c=some (t,c') → size c'=size c ∧ stored c'+1=stored c+kept
  /-- A kept entry goes after the handlers. -/
  finish_spec : ∀ c c',finish c=some c' → size c'=size c ∧ stored c'+kept=stored c

section Fast

open FastChannel

variable {α : Type*} {c c' : AsyncFast α}

/-- A send stores one tuple. -/
theorem fast_stored_send (t : Tuple α) (c : AsyncFast α) :
    (c.enqueue t).notify.queue.length=c.queue.length+1 := by
  simp only [AsyncFast.notify,AsyncFast.enqueue,List.length_append,List.length_singleton]

/-- A positive count is waited for without blocking. -/
theorem fast_semWait_pass (h : 0 < c.size) : c.semWait.isSome=true := by
  have hpos : c.sem.len > 0 := h
  simp only [AsyncFast.semWait,Semaphore.wait,if_pos hpos,Option.map_some,Option.isSome_some]

/-- Waiting leaves the queue. -/
theorem fast_semWait_spec (h : c.semWait=some c') :
    c.size=c'.size+1 ∧ c'.queue.length=c.queue.length := by
  obtain ⟨hq,hsem⟩ := semWait_eq_some h
  exact ⟨hsem,congrArg List.length hq⟩

/-- With a tuple in the queue one can be taken. -/
theorem fast_take_first (h : 0 < c.queue.length) : (c.waitDequeue 0).isSome=true := by
  obtain ⟨t,c',ht⟩ := waitDequeue_of_nonempty (List.ne_nil_of_length_pos h)
  rw [ht]
  rfl

/-- Taking a tuple leaves the count. -/
theorem fast_take_spec {k : ℕ} {t : Tuple α} (h : c.waitDequeue k=some (t,c')) :
    c'.size=c.size ∧ c'.queue.length+1=c.queue.length := by
  obtain ⟨hperm,hsem⟩ := waitDequeue_eq_some h
  have hlen := hperm.length_eq
  rw [List.length_cons] at hlen
  exact ⟨congrArg Semaphore.len hsem,hlen.symm⟩

end Fast

/-- The coroutine receives of an `async_fast`. -/
def asyncFast (α : Type*) :
    Channel (FastChannel.Tuple α) (FastChannel.AsyncFast α) (FastChannel.Tuple α) where
  fresh := .fresh
  send t c := (c.enqueue t).notify
  size c := c.size
  stored c := c.queue.length
  semWait c := c.semWait
  unready c _ := some (decide (c.size=0))
  take k c := c.waitDequeue k
  finish c := some c
  kept := 0
  size_fresh := rfl
  size_send _ _ := rfl
  stored_send t c := fast_stored_send t c
  semWait_pass _ h := fast_semWait_pass h
  semWait_spec _ _ h := fast_semWait_spec h
  unready_spec _ _ _ := rfl
  take_first _ h := fast_take_first h
  take_spec _ _ _ _ h := fast_take_spec h
  finish_spec c c' h := by
    cases h
    exact ⟨rfl,rfl⟩

/-- Priority, point in time, arguments and the sort of one send. -/
structure Delayed (α : Type*) where
  /-- The priority. -/
  priority : ℤ
  /-- The point in time. -/
  delayPoint : ℤ
  /-- The arguments. -/
  data : α
  /-- The sort the library performs in this send. -/
  std : MessageOrder.StdSort α

/-- The coroutine receives of an `async_delay`. -/
def asyncDelay (α : Type*) :
    Channel (Delayed α) (DelayChannel.AsyncDelay α) (MessageOrder.Message α) where
  fresh := .fresh
  send x c := c.operatorCall x.priority x.delayPoint x.data x.std
  size c := c.size
  stored c := c.queue.length
  semWait c := c.semWait
  unready c reading := c.queue.head?.map fun b => decide (reading < b.timestamp)
  take _ c := c.moveBack
  finish c := c.popBack.map Prod.snd
  kept := 1
  size_fresh := rfl
  size_send _ _ := rfl
  stored_send x c := DelayChannel.operatorCall_length c x.priority x.delayPoint x.data x.std
  semWait_pass c h := by
    have hpos : c.sem.len > 0 := h
    simp only [DelayChannel.AsyncDelay.semWait,Semaphore.wait,if_pos hpos,Option.map_some,
      Option.isSome_some]
  semWait_spec c c' h := by
    obtain ⟨hq,hsem⟩ := DelayChannel.semWait_eq_some h
    exact ⟨hsem,by rw [hq]⟩
  unready_spec c reading h := by
    obtain ⟨b,rest,hq⟩ := List.exists_cons_of_ne_nil (List.ne_nil_of_length_pos h)
    rw [hq]
    rfl
  take_first c h := by
    obtain ⟨b,rest,hq⟩ := List.exists_cons_of_ne_nil (List.ne_nil_of_length_pos h)
    simp only [DelayChannel.AsyncDelay.moveBack,hq,Option.isSome_some]
  take_spec k c t c' h := by
    obtain ⟨rest,hq,hq',hsem⟩ := DelayChannel.moveBack_eq_some h
    refine ⟨congrArg Semaphore.len hsem,?_⟩
    rw [hq,hq',List.length_cons,List.length_cons]
  finish_spec c c' h := by
    obtain ⟨⟨b,chan⟩,hp,rfl⟩ := Option.map_eq_some_iff.mp h
    obtain ⟨hq,hsem⟩ := DelayChannel.popBack_eq_some hp
    refine ⟨congrArg Semaphore.len hsem,?_⟩
    rw [hq,List.length_cons]

/-- One call in progress. -/
inductive Frame (M : Type*) where
  /-- In the timed loop of `wait(yield,timeout)`, after a turn which found the
  channel empty. -/
  | polling (mark : ℤ)
  /-- In `_get(yield)`, at `_sem.wait()`. -/
  | atSem
  /-- In `_get(yield)`, past `_sem.wait()`, before the next test of its loop. -/
  | looping
  /-- `_output` runs on this message. -/
  | dispatching (t : M)
  deriving DecidableEq

variable {ι S C M : Type*}

/-- The coroutines of a thread. -/
structure State (ι C M : Type*) where
  /-- The channel. -/
  chan : C
  /-- Every coroutine's calls, innermost first. -/
  stack : ι → List (Frame M)
  /-- The coroutine which runs. -/
  current : ι

/-- Nothing sent, and one coroutine about to run. -/
def State.start (ch : Channel S C M) (first : ι) : State ι C M := ⟨ch.fresh,fun _ => [],first⟩

/-- One step of the running coroutine. -/
inductive Act (ι S : Type*) where
  /-- Send. -/
  | send (x : S)
  /-- Yield in its own code or in a handler; another coroutine is resumed. -/
  | yields (other : ι)
  /-- Call `get(yield)`. -/
  | get
  /-- Call `wait(yield,timeout)`; the reading for the mark and the first reading
  of the timed loop. -/
  | wait (timeout entry first : ℤ)
  /-- One more turn of the timed loop. -/
  | poll (reading : ℤ)
  /-- Pass `_sem.wait()`. -/
  | semWait
  /-- Test the loop of `_get(yield)`; if it goes on, yield to another coroutine,
  else take a message and hand it over. -/
  | test (reading : ℤ) (other : ι) (choice : ℕ)
  /-- All subscribers returned. -/
  | returns
  /-- A subscriber threw, and the exception leaves the call. -/
  | throws

/-- The coroutine's own code or a handler runs. -/
def mayCall : List (Frame M) → Bool
  | [] => true
  | .dispatching _::_ => true
  | _ => false

variable [DecidableEq ι]

/-- Replace the calls of the running coroutine. -/
def State.goto (s : State ι C M) (st : List (Frame M)) : State ι C M :=
  {s with stack := Function.update s.stack s.current st}

/-- One turn of the timed loop of `wait(yield,timeout)`, on top of the given
calls. -/
def turn (ch : Channel S C M) (s : State ι C M) (mark reading : ℤ) (rest : List (Frame M)) :
    State ι C M :=
  if reading ≤ mark then
    if ch.size s.chan=0 then s.goto (.polling mark::rest) else s.goto (.atSem::rest)
  else s.goto rest

/-- Perform one step. -/
def next (ch : Channel S C M) (s : State ι C M) : Act ι S → Option (State ι C M)
  | .send x =>
    if mayCall (s.stack s.current)=true then some {s with chan := ch.send x s.chan} else none
  | .yields other =>
    if mayCall (s.stack s.current)=true then some {s with current := other} else none
  | .get =>
    if mayCall (s.stack s.current)=true then some (s.goto (.atSem::s.stack s.current)) else none
  | .wait timeout entry first =>
    if mayCall (s.stack s.current)=true then
      if timeout > 0 then some (turn ch s (entry+timeout) first (s.stack s.current))
      else some (s.goto (.atSem::s.stack s.current))
    else none
  | .poll reading =>
    match s.stack s.current with
    | .polling mark::rest => some (turn ch s mark reading rest)
    | _ => none
  | .semWait =>
    match s.stack s.current with
    | .atSem::rest =>
      (ch.semWait s.chan).map fun chan => {s.goto (.looping::rest) with chan := chan}
    | _ => none
  | .test reading other choice =>
    match s.stack s.current with
    | .looping::rest =>
      (ch.unready s.chan reading).bind fun again =>
        if again=true then some {s with current := other}
        else (ch.take choice s.chan).map fun (t,chan) =>
          {s.goto (.dispatching t::rest) with chan := chan}
    | _ => none
  | .returns =>
    match s.stack s.current with
    | .dispatching _::rest => (ch.finish s.chan).map fun chan => {s.goto rest with chan := chan}
    | _ => none
  | .throws =>
    match s.stack s.current with
    | .dispatching _::rest => some (s.goto rest)
    | _ => none

/-- The running coroutine stands at the semaphore of an empty channel, or turns
in the timed loop on one: nobody else can run and send. -/
def Holding (ch : Channel S C M) (s : State ι C M) : Prop :=
  ch.size s.chan=0 ∧ ∃ f rest,s.stack s.current=f::rest ∧ (f=.atSem ∨ ∃ mark,f=.polling mark)

/-- The step tests the loop of `_get(yield)`, finds nothing deliverable and
yields. -/
def Yields (ch : Channel S C M) (s : State ι C M) (a : Act ι S) : Prop :=
  ∃ reading other choice,a=.test reading other choice ∧ ch.unready s.chan reading=some true

/-- The present resumption ends: user code runs, or the running coroutine can go
on, and however it goes on without a yield, it ends after finitely many steps. -/
inductive Ends (ch : Channel S C M) : State ι C M → Prop
  | outside (s : State ι C M) : mayCall (s.stack s.current)=true → Ends ch s
  | inside (s : State ι C M) : (∃ a s',next ch s a=some s') →
      (∀ a s',next ch s a=some s' → ¬Yields ch s a → Ends ch s') → Ends ch s

/-- A receive is called with a positive count, or with a timeout which has
passed by the first reading of the timed loop. -/
def Served (ch : Channel S C M) (s : State ι C M) : Act ι S → Prop
  | .get => 0 < ch.size s.chan
  | .wait timeout entry first => 0 < ch.size s.chan ∨ timeout > 0 ∧ entry+timeout < first
  | _ => True

/-- The step calls `get(yield)` or `wait(yield,timeout)`. -/
def Act.receives : Act ι S → Bool
  | .get => true
  | .wait .. => true
  | _ => false

/-- Everything an accepted step can do. -/
inductive Effect (ch : Channel S C M) (s : State ι C M) : Act ι S → State ι C M → Prop
  | send (x : S) : mayCall (s.stack s.current)=true →
      Effect ch s (.send x) {s with chan := ch.send x s.chan}
  | yields (other : ι) : mayCall (s.stack s.current)=true →
      Effect ch s (.yields other) {s with current := other}
  | get : mayCall (s.stack s.current)=true →
      Effect ch s .get (s.goto (.atSem::s.stack s.current))
  | waits (timeout entry first : ℤ) : mayCall (s.stack s.current)=true → timeout > 0 →
      Effect ch s (.wait timeout entry first)
        (turn ch s (entry+timeout) first (s.stack s.current))
  | waitsNow (timeout entry first : ℤ) : mayCall (s.stack s.current)=true → ¬timeout > 0 →
      Effect ch s (.wait timeout entry first) (s.goto (.atSem::s.stack s.current))
  | poll (reading mark : ℤ) (rest : List (Frame M)) : s.stack s.current=.polling mark::rest →
      Effect ch s (.poll reading) (turn ch s mark reading rest)
  | semWait (rest : List (Frame M)) (chan : C) : s.stack s.current=.atSem::rest →
      ch.semWait s.chan=some chan →
      Effect ch s .semWait {s.goto (.looping::rest) with chan := chan}
  | waitsOn (reading : ℤ) (other : ι) (choice : ℕ) (rest : List (Frame M)) :
      s.stack s.current=.looping::rest → ch.unready s.chan reading=some true →
      Effect ch s (.test reading other choice) {s with current := other}
  | takes (reading : ℤ) (other : ι) (choice : ℕ) (rest : List (Frame M)) (t : M) (chan : C) :
      s.stack s.current=.looping::rest → ch.unready s.chan reading=some false →
      ch.take choice s.chan=some (t,chan) →
      Effect ch s (.test reading other choice) {s.goto (.dispatching t::rest) with chan := chan}
  | returns (t : M) (rest : List (Frame M)) (chan : C) : s.stack s.current=.dispatching t::rest →
      ch.finish s.chan=some chan → Effect ch s .returns {s.goto rest with chan := chan}
  | throws (t : M) (rest : List (Frame M)) : s.stack s.current=.dispatching t::rest →
      Effect ch s .throws (s.goto rest)

/-- The step function has no other effects. -/
theorem next_effect {ch : Channel S C M} {s s' : State ι C M} {a : Act ι S}
    (h : next ch s a=some s') : Effect ch s a s' := by
  cases a with
  | send x =>
    simp only [next] at h
    split at h <;> cases h
    rename_i hmay
    exact .send x hmay
  | yields other =>
    simp only [next] at h
    split at h <;> cases h
    rename_i hmay
    exact .yields other hmay
  | get =>
    simp only [next] at h
    split at h <;> cases h
    rename_i hmay
    exact .get hmay
  | wait timeout entry first =>
    simp only [next] at h
    split at h
    · rename_i hmay
      split at h <;> cases h
      · rename_i htimeout
        exact .waits timeout entry first hmay htimeout
      · rename_i htimeout
        exact .waitsNow timeout entry first hmay htimeout
    · cases h
  | poll reading =>
    simp only [next] at h
    split at h <;> cases h
    rename_i mark rest hstack
    exact .poll reading mark rest hstack
  | semWait =>
    simp only [next] at h
    split at h
    · rename_i rest hstack
      obtain ⟨chan,hpass,rfl⟩ := Option.map_eq_some_iff.mp h
      exact .semWait rest chan hstack hpass
    · cases h
  | test reading other choice =>
    simp only [next] at h
    split at h
    · rename_i rest hstack
      obtain ⟨again,hagain,h⟩ := Option.bind_eq_some_iff.mp h
      cases again with
      | true =>
        cases h
        exact .waitsOn reading other choice rest hstack hagain
      | false =>
        simp only [Bool.false_eq_true,if_false] at h
        obtain ⟨⟨t,chan⟩,htake,rfl⟩ := Option.map_eq_some_iff.mp h
        exact .takes reading other choice rest t chan hstack hagain htake
    · cases h
  | returns =>
    simp only [next] at h
    split at h
    · rename_i t rest hstack
      obtain ⟨chan,hfinish,rfl⟩ := Option.map_eq_some_iff.mp h
      exact .returns t rest chan hstack hfinish
    · cases h
  | throws =>
    simp only [next] at h
    split at h <;> cases h
    rename_i t rest hstack
    exact .throws t rest hstack

omit [DecidableEq ι] in
/-- A coroutine in the timed loop or at the semaphore is not in user code. -/
theorem mayCall_of_holding {ch : Channel S C M} {s : State ι C M} (h : Holding ch s) :
    mayCall (s.stack s.current)=false := by
  obtain ⟨-,f,rest,hstack,hf⟩ := h
  rw [hstack]
  rcases hf with rfl|⟨mark,rfl⟩ <;> rfl

/-- A resumption which ends does not hold the thread: at the semaphore of an
empty channel there is no step, and in the timed loop a reading at the mark
changes nothing. -/
theorem Ends.not_holding {ch : Channel S C M} {s : State ι C M} (h : Ends ch s) :
    ¬Holding ch s := by
  induction h with
  | outside s hmay =>
    intro hholding
    rw [mayCall_of_holding hholding] at hmay
    contradiction
  | inside s hgoes hends ih =>
    intro hholding
    have hagain := hholding
    obtain ⟨hsize,f,rest,hstack,hf⟩ := hholding
    rcases hf with rfl|⟨mark,rfl⟩
    · obtain ⟨a,s',hs'⟩ := hgoes
      cases a with
      | semWait =>
        simp only [next,hstack] at hs'
        obtain ⟨chan,hchan,-⟩ := Option.map_eq_some_iff.mp hs'
        have hcount := (ch.semWait_spec _ _ hchan).1
        omega
      | send | yields | get | wait | poll | test | returns | throws =>
        simp only [next,hstack,mayCall,Bool.false_eq_true,if_false,reduceCtorEq] at hs'
    · have hturn : next ch s (.poll mark)=some s := by
        have hsame : s.goto (.polling mark::rest)=s := by
          rw [State.goto,←hstack,Function.update_eq_self]
        simp only [next,hstack,turn,le_refl,if_true,if_pos hsize,hsame]
      have hnot : ¬Yields ch s (.poll mark) := by
        rintro ⟨reading,other,choice,hact,-⟩
        cases hact
      exact ih _ _ hturn hnot hagain

/-- Calls stand on top of handlers only; nobody turns in the timed loop, and at
the semaphore there is only the running coroutine, with a positive count. -/
structure Live (ch : Channel S C M) (s : State ι C M) : Prop where
  /-- Everything below the innermost call is a handler's. -/
  nested : ∀ j,∀ f∈(s.stack j).tail,∃ t,f=.dispatching t
  /-- The innermost call can go on. -/
  served : ∀ j f rest,s.stack j=f::rest →
    (∀ mark,f≠.polling mark) ∧ (f=.atSem → j=s.current ∧ 0 < ch.size s.chan)

omit [DecidableEq ι] in
/-- Nobody has called yet. -/
theorem live_start (ch : Channel S C M) (first : ι) : Live ch (State.start ch first) :=
  ⟨fun _ _ h => False.elim (List.not_mem_nil h),nofun⟩

omit [DecidableEq ι] in
/-- Below and at the top of the calls of a coroutine in user code there are
handlers only. -/
theorem Live.dispatching {ch : Channel S C M} {s : State ι C M} (hs : Live ch s)
    (hmay : mayCall (s.stack s.current)=true) :
    ∀ f∈s.stack s.current,∃ t,f=.dispatching t := by
  intro f hf
  cases hstack : s.stack s.current with
  | nil =>
    rw [hstack] at hf
    exact False.elim (List.not_mem_nil hf)
  | cons top rest =>
    have hnested := hs.nested s.current
    rw [hstack] at hf hmay hnested
    rcases List.mem_cons.mp hf with rfl|hrest
    · cases f with
      | dispatching t => exact ⟨t,rfl⟩
      | polling | atSem | looping => contradiction
    · exact hnested f hrest

/-- A step of the running coroutine which leaves it outside the timed loop, and
at the semaphore with a positive count only. -/
theorem Live.goto {ch : Channel S C M} {s : State ι C M} (hs : Live ch s) {chan : C}
    {st : List (Frame M)} (htail : ∀ f∈st.tail,∃ t,f=.dispatching t)
    (htop : ∀ f rest,st=f::rest →
      (∀ mark,f≠.polling mark) ∧ (f=.atSem → 0 < ch.size chan)) :
    Live ch {s.goto st with chan := chan} := by
  refine ⟨fun j f hf => ?_,fun j f rest hj => ?_⟩
  · by_cases hcurrent : j=s.current
    · subst hcurrent
      simp only [State.goto,Function.update_self] at hf
      exact htail f hf
    · simp only [State.goto,Function.update_of_ne hcurrent] at hf
      exact hs.nested j f hf
  · by_cases hcurrent : j=s.current
    · subst hcurrent
      simp only [State.goto,Function.update_self] at hj
      obtain ⟨hpoll,hsem⟩ := htop f rest hj
      exact ⟨hpoll,fun hf => ⟨rfl,hsem hf⟩⟩
    · simp only [State.goto,Function.update_of_ne hcurrent] at hj
      obtain ⟨hpoll,hsem⟩ := hs.served j f rest hj
      exact ⟨hpoll,fun hf => False.elim (hcurrent (hsem hf).1)⟩

omit [DecidableEq ι] in
/-- Control passes on from a coroutine which is not at the semaphore. -/
theorem Live.switch {ch : Channel S C M} {s : State ι C M} (hs : Live ch s)
    (hnot : ∀ rest,s.stack s.current≠.atSem::rest) (other : ι) :
    Live ch {s with current := other} := by
  refine ⟨hs.nested,fun j f rest hj => ?_⟩
  obtain ⟨hpoll,hsem⟩ := hs.served j f rest hj
  refine ⟨hpoll,fun hf => ?_⟩
  subst hf
  obtain ⟨rfl,-⟩ := hsem rfl
  exact False.elim (hnot rest hj)

/-- Calling a receive with a positive count keeps the coroutines live. -/
theorem Live.call {ch : Channel S C M} {s : State ι C M} (hs : Live ch s)
    (hmay : mayCall (s.stack s.current)=true) (hpos : 0 < ch.size s.chan) :
    Live ch (s.goto (.atSem::s.stack s.current)) := by
  refine hs.goto (fun f hf => hs.dispatching hmay f hf) fun f rest hf => ?_
  obtain ⟨rfl,-⟩ := List.cons.inj hf
  exact ⟨nofun,fun _ => hpos⟩

/-- Leaving a call for the handler or the code below it keeps the coroutines
live. -/
theorem Live.leave {ch : Channel S C M} {s : State ι C M} (hs : Live ch s)
    {rest : List (Frame M)} (hrest : ∀ f∈rest,∃ t,f=.dispatching t) (chan : C) :
    Live ch {s.goto rest with chan := chan} := by
  refine hs.goto (fun f hf => hrest f (List.mem_of_mem_tail hf)) fun f below hf => ?_
  obtain ⟨t,rfl⟩ := hrest f (by rw [hf]; exact List.mem_cons_self)
  exact ⟨nofun,nofun⟩

/-- Moving on inside a call, to its loop or to its handlers. -/
theorem Live.enter {ch : Channel S C M} {s : State ι C M} (hs : Live ch s) {f : Frame M}
    {rest : List (Frame M)} (hrest : ∀ f∈rest,∃ t,f=.dispatching t)
    (hf : f=.looping ∨ ∃ t,f=.dispatching t) (chan : C) :
    Live ch {s.goto (f::rest) with chan := chan} := by
  refine hs.goto hrest fun g below hg => ?_
  obtain ⟨rfl,-⟩ := List.cons.inj hg
  rcases hf with rfl|⟨t,rfl⟩
  · exact ⟨nofun,nofun⟩
  · exact ⟨nofun,nofun⟩

omit [DecidableEq ι] in
/-- Below the innermost call there are handlers only. -/
theorem Live.below {ch : Channel S C M} {s : State ι C M} (hs : Live ch s) {f : Frame M}
    {rest : List (Frame M)} (hstack : s.stack s.current=f::rest) :
    ∀ g∈rest,∃ t,g=.dispatching t := by
  have hnested := hs.nested s.current
  rwa [hstack] at hnested

/-- Every step of a run whose receives are served keeps the coroutines live. -/
theorem live_step {ch : Channel S C M} {s s' : State ι C M} {a : Act ι S} (hs : Live ch s)
    (hok : Served ch s a) (h : next ch s a=some s') : Live ch s' := by
  cases next_effect h with
  | send x hmay =>
    refine ⟨hs.nested,fun j f rest hj => ?_⟩
    obtain ⟨hpoll,hsem⟩ := hs.served j f rest hj
    refine ⟨hpoll,fun hf => ⟨(hsem hf).1,?_⟩⟩
    rw [ch.size_send]
    exact Nat.succ_pos _
  | yields other hmay =>
    refine hs.switch (fun rest hrest => ?_) other
    rw [hrest] at hmay
    contradiction
  | get hmay => exact hs.call hmay hok
  | waits timeout entry first hmay htimeout =>
    unfold turn
    split
    · rename_i hle
      have hpos : 0 < ch.size s.chan := by
        rcases hok with hpos|⟨-,hpast⟩
        · exact hpos
        · omega
      rw [if_neg (by omega)]
      exact hs.call hmay hpos
    · exact hs.leave (hs.dispatching hmay) s.chan
  | waitsNow timeout entry first hmay htimeout =>
    rcases hok with hpos|⟨hpast,-⟩
    · exact hs.call hmay hpos
    · exact False.elim (htimeout hpast)
  | poll reading mark rest hstack =>
    exact False.elim ((hs.served _ _ _ hstack).1 mark rfl)
  | semWait rest chan hstack _ => exact hs.enter (hs.below hstack) (.inl rfl) chan
  | waitsOn reading other choice rest hstack _ =>
    refine hs.switch (fun below hbelow => ?_) other
    rw [hstack] at hbelow
    cases hbelow
  | takes reading other choice rest t chan hstack _ _ =>
    exact hs.enter (hs.below hstack) (.inr ⟨t,rfl⟩) chan
  | returns t rest chan hstack _ => exact hs.leave (hs.below hstack) chan
  | throws t rest hstack => exact hs.leave (hs.below hstack) s.chan

/-- Entries of the queue a call in progress relies on. -/
def Frame.claims (ch : Channel S C M) : Frame M → ℕ
  | .looping => 1
  | .dispatching _ => ch.kept
  | _ => 0

/-- Entries all calls in progress rely on. -/
def load [Fintype ι] (ch : Channel S C M) (s : State ι C M) : ℕ :=
  stackTotal (fun _ _ f => Frame.claims ch f) s.stack

/-- The queue has an entry for every unit of the count and every claim. -/
def Backed [Fintype ι] (ch : Channel S C M) (s : State ι C M) : Prop :=
  ch.size s.chan+load ch s ≤ ch.stored s.chan

variable [Fintype ι]

/-- The running coroutine exchanges its own claims. -/
theorem load_goto (ch : Channel S C M) (s : State ι C M) (st : List (Frame M)) :
    load ch (s.goto st)+stackWeight (fun _ f => Frame.claims ch f) (s.stack s.current)=
      load ch s+stackWeight (fun _ f => Frame.claims ch f) st :=
  total_update (fun _ st => stackWeight (fun _ f => Frame.claims ch f) st) s.stack s.current st

/-- A turn of the timed loop claims nothing. -/
theorem load_turn (ch : Channel S C M) (s : State ι C M) (mark reading : ℤ)
    (rest : List (Frame M)) :
    load ch (turn ch s mark reading rest)+
        stackWeight (fun _ f => Frame.claims ch f) (s.stack s.current)=
      load ch s+stackWeight (fun _ f => Frame.claims ch f) rest ∧
    (turn ch s mark reading rest).chan=s.chan := by
  have hzero : ∀ f : Frame M,Frame.claims ch f=0 →
      load ch (s.goto (f::rest))+
          stackWeight (fun _ f => Frame.claims ch f) (s.stack s.current)=
        load ch s+stackWeight (fun _ f => Frame.claims ch f) rest := by
    intro f hf
    rw [load_goto,stackWeight,hf,Nat.zero_add]
  unfold turn
  split
  · split
    · exact ⟨hzero _ rfl,rfl⟩
    · exact ⟨hzero _ rfl,rfl⟩
  · exact ⟨load_goto ch s rest,rfl⟩

/-- Exchanging calls and channel is backed, if the claims changed no more than the
entries beyond the count. -/
theorem backed_goto {ch : Channel S C M} {s : State ι C M} (hb : Backed ch s)
    (st : List (Frame M)) (chan : C)
    (hle : stackWeight (fun _ f => Frame.claims ch f) st+ch.size chan+ch.stored s.chan ≤
      stackWeight (fun _ f => Frame.claims ch f) (s.stack s.current)+ch.size s.chan+
        ch.stored chan) :
    Backed ch {s.goto st with chan := chan} := by
  have hload := load_goto ch s st
  unfold Backed at hb ⊢
  change ch.size chan+load ch (s.goto st) ≤ ch.stored chan
  omega

/-- Every step of every coroutine leaves the queue backing all claims. -/
theorem backed_step {ch : Channel S C M} {s s' : State ι C M} {a : Act ι S} (hb : Backed ch s)
    (h : next ch s a=some s') : Backed ch s' := by
  cases next_effect h with
  | send x _ =>
    have hload : load ch {s with chan := ch.send x s.chan}=load ch s := rfl
    unfold Backed at hb ⊢
    rw [hload,ch.size_send,ch.stored_send]
    omega
  | yields | waitsOn => exact hb
  | get | waitsNow =>
    refine backed_goto hb _ s.chan ?_
    simp only [stackWeight,Frame.claims]
    omega
  | waits timeout entry first _ _ =>
    obtain ⟨hload,hchan⟩ := load_turn ch s (entry+timeout) first (s.stack s.current)
    unfold Backed at hb ⊢
    rw [hchan]
    omega
  | poll reading mark rest hstack =>
    obtain ⟨hload,hchan⟩ := load_turn ch s mark reading rest
    rw [hstack] at hload
    simp only [stackWeight,Frame.claims] at hload
    unfold Backed at hb ⊢
    rw [hchan]
    omega
  | semWait rest chan hstack hpass =>
    obtain ⟨hsize,hstored⟩ := ch.semWait_spec _ _ hpass
    refine backed_goto hb _ chan ?_
    simp only [hstack,stackWeight,Frame.claims]
    omega
  | takes reading other choice rest t chan hstack _ htake =>
    obtain ⟨hsize,hstored⟩ := ch.take_spec _ _ _ _ htake
    refine backed_goto hb _ chan ?_
    simp only [hstack,stackWeight,Frame.claims]
    omega
  | returns t rest chan hstack hfinish =>
    obtain ⟨hsize,hstored⟩ := ch.finish_spec _ _ hfinish
    refine backed_goto hb _ chan ?_
    simp only [hstack,stackWeight,Frame.claims]
    omega
  | throws t rest hstack =>
    refine backed_goto hb _ s.chan ?_
    simp only [hstack,stackWeight,Frame.claims]
    omega

omit [DecidableEq ι] in
/-- Nothing is claimed before the first step. -/
theorem backed_start (ch : Channel S C M) (first : ι) : Backed ch (State.start ch first) := by
  have hload : load ch (State.start ch first)=0 := total_eq_zero _ _ fun _ => rfl
  have hsize : ch.size (State.start ch first).chan=0 := ch.size_fresh
  rw [Backed,hload,hsize]
  exact Nat.zero_le _

omit [Fintype ι] in
/-- In the loop of `_get(yield)` a test yields, or a message is handed over. -/
theorem ends_of_looping {ch : Channel S C M} {s : State ι C M} {rest : List (Frame M)}
    (hstack : s.stack s.current=.looping::rest) (hstored : 0 < ch.stored s.chan) : Ends ch s := by
  refine .inside s ?_ fun a s' h hnot => ?_
  · obtain ⟨again,hagain⟩ := Option.isSome_iff_exists.mp (ch.unready_spec s.chan 0 hstored)
    obtain ⟨⟨t,chan⟩,htake⟩ := Option.isSome_iff_exists.mp (ch.take_first s.chan hstored)
    refine ⟨.test 0 s.current 0,?_⟩
    simp only [next,hstack,hagain,Option.bind_some,htake,Option.map_some]
    cases again with
    | true => exact ⟨_,rfl⟩
    | false => exact ⟨_,rfl⟩
  · cases a with
    | test reading other choice =>
      simp only [next,hstack] at h
      obtain ⟨again,hagain,h⟩ := Option.bind_eq_some_iff.mp h
      cases again with
      | true => exact False.elim (hnot ⟨reading,other,choice,rfl,hagain⟩)
      | false =>
        simp only [Bool.false_eq_true,if_false] at h
        obtain ⟨⟨t,chan⟩,-,rfl⟩ := Option.map_eq_some_iff.mp h
        refine .outside _ ?_
        simp only [State.goto,Function.update_self,mayCall]
    | send | yields | get | wait | poll | semWait | returns | throws =>
      simp only [next,hstack,mayCall,Bool.false_eq_true,if_false,reduceCtorEq] at h

omit [Fintype ι] in
/-- With a positive count the semaphore is passed, and the loop follows. -/
theorem ends_of_atSem {ch : Channel S C M} {s : State ι C M} {rest : List (Frame M)}
    (hstack : s.stack s.current=.atSem::rest) (hsize : 0 < ch.size s.chan)
    (hstored : 0 < ch.stored s.chan) : Ends ch s := by
  refine .inside s ?_ fun a s' h _ => ?_
  · obtain ⟨chan,hpass⟩ := Option.isSome_iff_exists.mp (ch.semWait_pass s.chan hsize)
    refine ⟨.semWait,?_⟩
    simp only [next,hstack,hpass,Option.map_some]
    exact ⟨_,rfl⟩
  · cases a with
    | semWait =>
      simp only [next,hstack] at h
      obtain ⟨chan,hpass,rfl⟩ := Option.map_eq_some_iff.mp h
      refine ends_of_looping (Function.update_self _ _ _) ?_
      have hkeep := (ch.semWait_spec _ _ hpass).2
      change 0 < ch.stored chan
      omega
    | send | yields | get | wait | poll | test | returns | throws =>
      simp only [next,hstack,mayCall,Bool.false_eq_true,if_false,reduceCtorEq] at h

/-- From every live and backed state the present resumption ends. -/
theorem ends_of_live {ch : Channel S C M} {s : State ι C M} (hs : Live ch s)
    (hb : Backed ch s) : Ends ch s := by
  unfold Backed at hb
  cases hstack : s.stack s.current with
  | nil => exact .outside s (by rw [hstack]; rfl)
  | cons f rest =>
    have hserved := hs.served _ _ _ hstack
    cases f with
    | polling mark => exact False.elim (hserved.1 mark rfl)
    | atSem =>
      have hsize := (hserved.2 rfl).2
      exact ends_of_atSem hstack hsize (by omega)
    | looping =>
      have hmem : .looping∈s.stack s.current := by rw [hstack]; exact List.mem_cons_self
      have hclaim : 1 ≤ load ch s := le_stackTotal (Frame.claims ch) hmem
      exact ends_of_looping hstack (by omega)
    | dispatching t => exact .outside s (by rw [hstack]; rfl)

omit [Fintype ι] in
/-- A receive which is not served holds the thread at once. -/
theorem holding_of_not_served {ch : Channel S C M} {s s' : State ι C M} {a : Act ι S}
    (hnot : ¬Served ch s a) (h : next ch s a=some s') : Holding ch s' := by
  cases next_effect h with
  | get _ =>
    simp only [Served] at hnot
    refine ⟨?_,.atSem,s.stack s.current,Function.update_self _ _ _,.inl rfl⟩
    change ch.size s.chan=0
    omega
  | waits timeout entry first _ htimeout =>
    simp only [Served,not_or,not_and] at hnot
    have hsize : ch.size s.chan=0 := by omega
    have hle : first ≤ entry+timeout := by
      have hpast := hnot.2 htimeout
      omega
    rw [turn,if_pos hle,if_pos hsize]
    exact ⟨hsize,_,_,Function.update_self _ _ _,.inr ⟨_,rfl⟩⟩
  | waitsNow timeout entry first _ _ =>
    simp only [Served,not_or] at hnot
    have hsize : ch.size s.chan=0 := by omega
    exact ⟨hsize,_,_,Function.update_self _ _ _,.inl rfl⟩
  | send | yields | poll | semWait | waitsOn | takes | returns | throws =>
    exact False.elim (hnot trivial)

/-- What cooperating coroutines rely on: in every state of every schedule whose
receives are served the present resumption ends by a yield or outside the
receive, so the thread is not held; and a receive called from such a state
ends so exactly when it is served. -/
def YieldsWhenServed (ι : Type*) [DecidableEq ι] (ch : Channel S C M) : Prop :=
  ∀ (first : ι) {acts : List (Act ι S)} {s : State ι C M},
    Reaches (next ch) (Served ch) (.start ch first) acts s →
      Ends ch s ∧ ¬Holding ch s ∧
      ∀ a s',a.receives=true → next ch s a=some s' → (Ends ch s' ↔ Served ch s a)

/-- Both invariants hold along every served schedule, and give the ends. -/
theorem yieldsWhenServed (ch : Channel S C M) : YieldsWhenServed ι ch := by
  intro first acts s h
  have hlive : ∀ {acts : List (Act ι S)} {s : State ι C M},
      Reaches (next ch) (Served ch) (.start ch first) acts s → Live ch s ∧ Backed ch s :=
    fun h => ⟨h.invariant (live_start ch first) live_step,
      h.invariant (backed_start ch first) fun hb _ hn => backed_step hb hn⟩
  have hends := ends_of_live (hlive h).1 (hlive h).2
  refine ⟨hends,hends.not_holding,fun a s' _ hn => ⟨fun hends' => ?_,fun hok => ?_⟩⟩
  · by_contra hnot
    exact hends'.not_holding (holding_of_not_served hnot hn)
  · exact ends_of_live (hlive (h.step a hok hn)).1 (hlive (h.step a hok hn)).2

/-- Coroutine receives of both asynchronous classes, on one thread with any
finite number of coroutines. -/
theorem coroutine_receives_yield_iff_served (α : Type*) :
    YieldsWhenServed ι (asyncFast α) ∧ YieldsWhenServed ι (asyncDelay α) :=
  ⟨yieldsWhenServed _,yieldsWhenServed _⟩

/-- A coroutine parks in the loop of `get(yield)` on the last tuple, another one
sends and runs on, and the first one is resumed and served. -/
def parkedRun : List (Act (Fin 2) (FastChannel.Tuple ℕ)) :=
  [.send ⟨0,7⟩,.get,.semWait,.test 0 1 0,.send ⟨1,8⟩,.yields 0]

instance (ch : Channel S C M) (s : State ι C M) : (a : Act ι S) → Decidable (Served ch s a)
  | .get => inferInstanceAs (Decidable (_ < _))
  | .wait .. => inferInstanceAs (Decidable (_ ∨ _))
  | .send _ | .yields _ | .poll _ | .semWait | .test .. | .returns | .throws =>
    inferInstanceAs (Decidable True)

/-- After its yield the parked coroutine is back in its loop, which ends. -/
theorem coroutine_receives_yield_parked :
    ∃ s,Reaches (next (asyncFast ℕ)) (Served (asyncFast ℕ)) (.start (asyncFast ℕ) 0) parkedRun s ∧
      s.stack 0=[.looping] ∧ s.current=0 ∧ Ends (asyncFast ℕ) s := by
  obtain ⟨s,hs,hseen⟩ := reaches_of_replay (next (asyncFast ℕ)) (Served (asyncFast ℕ))
    (.start (asyncFast ℕ) 0) parkedRun (fun s => (s.stack 0,s.current)) ([.looping],0) (by decide)
  simp only [Prod.mk.injEq] at hseen
  exact ⟨s,hs,hseen.1,hseen.2,((coroutine_receives_yield_iff_served ℕ).1 0 hs).1⟩

omit [Fintype ι] in
/-- Any receive which is not served from the start holds the thread. -/
theorem start_receive_holds (ch : Channel S C M) (first : ι) {a : Act ι S}
    (hnot : ¬Served ch (.start ch first) a) (hgoes : (next ch (.start ch first) a).isSome=true) :
    ∃ s,Reaches (next ch) Unrestricted (.start ch first) [a] s ∧ Holding ch s ∧ ¬Ends ch s := by
  obtain ⟨s,hs⟩ := Option.isSome_iff_exists.mp hgoes
  have hholding := holding_of_not_served hnot hs
  exact ⟨s,.step a .start trivial hs,hholding,fun hends => hends.not_holding hholding⟩

/-- On a fresh channel of either class `get(yield)` waits at the semaphore and
`wait(yield,50)` turns in its timed loop, and neither resumption ends. -/
theorem coroutine_receives_hold_empty :
    (∀ a∈[Act.get,Act.wait 50 0 1],
      ∃ s,Reaches (next (asyncFast ℕ)) Unrestricted (.start (asyncFast ℕ) (0 : Fin 2)) [a] s ∧
        Holding (asyncFast ℕ) s ∧ ¬Ends (asyncFast ℕ) s) ∧
    ∀ a∈[Act.get,Act.wait 50 0 1],
      ∃ s,Reaches (next (asyncDelay ℕ)) Unrestricted (.start (asyncDelay ℕ) (0 : Fin 2)) [a] s ∧
        Holding (asyncDelay ℕ) s ∧ ¬Ends (asyncDelay ℕ) s := by
  refine ⟨fun a ha => ?_,fun a ha => ?_⟩
  · simp only [List.mem_cons,List.not_mem_nil,or_false] at ha
    rcases ha with rfl|rfl
    · exact start_receive_holds _ _ (by decide) rfl
    · exact start_receive_holds _ _ (by decide) rfl
  · simp only [List.mem_cons,List.not_mem_nil,or_false] at ha
    rcases ha with rfl|rfl
    · exact start_receive_holds _ _ (by decide) rfl
    · exact start_receive_holds _ _ (by decide) rfl

end FastEventSystem.Coroutines
