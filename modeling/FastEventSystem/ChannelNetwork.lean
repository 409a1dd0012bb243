import FastEventSystem.AcyclicFlow
import FastEventSystem.DelayChannel
import FastEventSystem.FastChannel
import FastEventSystem.GuardedRuns
import FastEventSystem.SyncRegistry

/-!
# Networks of channels

Channels of the three kinds are wired by the channel-to-channel overloads of
`connect`. One caller sends and receives in any order. The clock may be read
anew at every step; a waiting receive of a delayed channel may be overtaken by
other receives and sends before its loop ends. A dispatch performs the calls of
its subscribers depth first, one call at a time, and only then another
operation of the caller begins.

The arguments of a call are one cell, and they have the types of the channel.
Subscribers are `std::function` objects over const references, so neither
`call_copy` nor the forwarding of the last iteration changes the cell of the
caller, and each of the nine bridging lambdas moves at most its own by-value
copy; `ForwardRefinement.iteration_of_cell` connects both calls to the value
categories of the source. The one cell which is emptied is the back
entry of a delayed channel. Where a cell comes from, its time and the positions
of the subscribers it went through are a history.
-/

namespace FastEventSystem.ChannelNetwork

open AcyclicFlow MessageOrder DelayChannel FastChannel SyncRegistry

/-- A channel, by its kind and name. -/
inductive Chan (S F D : Type*)
  /-- A `sync`. -/
  | sync (s : S)
  /-- An `async_fast`. -/
  | fast (f : F)
  /-- An `async_delay`. -/
  | delay (d : D)
  deriving DecidableEq,Repr

variable {η S F D α : Type*}

/-- The channel a bridging subscriber sends to; none for a leaf handler. -/
def target : Method η S F D → Option (Chan S F D)
  | .functor _ => none
  | .bind _ _ => none
  | .sync callback => some (.sync callback)
  | .fast queue => some (.fast queue)
  | .delay _ _ queue => some (.delay queue)

/-- The delay a subscriber adds to the clock. -/
def lag : Method η S F D → ℤ
  | .delay _ delay _ => delay
  | _ => 0

/-- Channels with their subscriber lists, wired without cycles. -/
structure Network (η S F D : Type*) where
  /-- The handler list of the `sync` in or behind each channel. -/
  registered : Chan S F D → List (Method η S F D)
  /-- No channel feeds itself. -/
  acyclic : (⟨registered,target⟩ : Wiring (Chan S F D) (Method η S F D)).Acyclic

/-- The wiring of a network. -/
def Network.wiring (net : Network η S F D) : Wiring (Chan S F D) (Method η S F D) :=
  ⟨net.registered,target⟩

/-- The arguments of one send, with the history of the copy at hand. -/
structure Parcel (S F D α : Type*) where
  /-- What was sent. -/
  payload : α
  /-- The channel it was sent to. -/
  origin : Chan S F D
  /-- Its timestamp, or the clock when it was sent to an undelayed channel. -/
  time : ℤ
  /-- The positions of the subscribers it went through. -/
  route : List ℕ
  deriving DecidableEq,Repr

/-- Arguments which may have been moved away. -/
abbrev Cell (S F D α : Type*) := Option (Parcel S F D α)

/-- The payload left in a cell. -/
def payload (data : Cell S F D α) : Option α := data.map Parcel.payload

/-- Note the position of the next subscriber in the history. -/
def extend (i : ℕ) (data : Cell S F D α) : Cell S F D α :=
  data.map fun p => {p with route := p.route++[i]}

/-- A call of a subscriber which is still to be made. -/
structure Call (η S F D α : Type*) where
  /-- The subscriber. -/
  method : Method η S F D
  /-- Its arguments. -/
  data : Cell S F D α
  deriving DecidableEq,Repr

/-- `method::operator()`: call with the arguments bound to const references;
the caller's cell is as before. -/
def forwardCall (m : Method η S F D) (i : ℕ) (data : Cell S F D α) :
    Call η S F D α×Cell S F D α := (⟨m,extend i data⟩,data)

/-- `method::call_copy`: call with a copy of the caller's cell. -/
def callCopy (m : Method η S F D) (i : ℕ) (data : Cell S F D α) :
    Call η S F D α×Cell S F D α := (⟨m,extend i data⟩,data)

/-- `sync::operator()`: copy for every subscriber but the last, forward for the
last one. -/
def operatorCall : ℕ → List (Method η S F D) → Cell S F D α → List (Call η S F D α)
  | _,[],_ => []
  | i,[m],data => [(forwardCall m i data).1]
  | i,m::m'::ms,data =>
    let copied := callCopy m i data
    copied.1::operatorCall (i+1) (m'::ms) copied.2

/-- A call which was made, with the clock at that time. -/
structure Made (η S F D α : Type*) where
  /-- The subscriber. -/
  method : Method η S F D
  /-- Its arguments. -/
  data : Cell S F D α
  /-- The clock reading. -/
  reading : ℤ
  deriving DecidableEq,Repr

/-- The channels, the calls in progress, the clock and the histories. -/
structure State (η S F D α : Type*) where
  /-- The queues of the `async_fast` channels. -/
  fast : F → AsyncFast (Cell S F D α)
  /-- The queues of the `async_delay` channels. -/
  delay : D → AsyncDelay (Cell S F D α)
  /-- Receives inside the wait loop of each `async_delay`. -/
  waiting : D → ℕ
  /-- Calls still to be made by the dispatch in progress, depth first. -/
  calls : List (Call η S F D α)
  /-- The `async_delay` whose pop is due after the dispatch. -/
  running : Option D
  /-- The last clock reading. -/
  now : ℤ
  /-- Everything sent, newest first; a history. -/
  sends : List (Parcel S F D α)
  /-- Every dispatch of a channel with its arguments, newest first; a history. -/
  dispatched : List (Chan S F D×Cell S F D α)
  /-- Every call of a subscriber, newest first; a history. -/
  made : List (Made η S F D α)

/-- All queues are empty. -/
def State.start (now : ℤ) : State η S F D α :=
  ⟨fun _ => .fresh,fun _ => .fresh,fun _ => 0,[],none,now,[],[],[]⟩

/-- Nothing is being dispatched. -/
def State.idle (s : State η S F D α) : Bool := s.calls.isEmpty && s.running.isNone

/-- The steps of the caller, of its dispatches and of the clock. -/
inductive Act (S F D α : Type*)
  /-- The clock is read. -/
  | tick (reading : ℤ)
  /-- Send to a `sync`. -/
  | sendSync (s : S) (x : α)
  /-- Send to an `async_fast`. -/
  | sendFast (f : F) (x : α)
  /-- Send to an `async_delay` for a point in time. -/
  | sendDelay (d : D) (priority delayPoint : ℤ) (x : α) (std : StdSort (Cell S F D α))
  /-- Receive from an `async_fast`, by `get` or by `update` of a non-empty
  channel; it hands out the tuple at a position. -/
  | getFast (f : F) (position : ℕ)
  /-- Begin to receive from an `async_delay`, by `get` or by `update` of a
  non-empty channel. -/
  | semWait (d : D)
  /-- The reading which ends the wait loop; earlier readings change nothing. -/
  | handOver (d : D)
  /-- Make the next call. -/
  | call (std : StdSort (Cell S F D α))
  /-- Pop after the dispatch. -/
  | popBack

/-- The caller is between operations. -/
theorem idle_iff (s : State η S F D α) : s.idle=true ↔ s.calls=[] ∧ s.running=none := by
  rw [State.idle,Bool.and_eq_true,List.isEmpty_iff,Option.isNone_iff_eq_none]

/-- Copied or forwarded, every subscriber is called with the cell as given. -/
theorem operatorCall_eq (i : ℕ) (ms : List (Method η S F D)) (data : Cell S F D α) :
    operatorCall i ms data=(ms.zipIdx i).map fun e => ⟨e.1,extend e.2 data⟩ := by
  induction ms generalizing i with
  | nil => rfl
  | cons m ms ih =>
    cases ms with
    | nil => rfl
    | cons m' ms =>
      have htail := ih (i+1)
      simp only [operatorCall,callCopy,htail]
      rfl

/-- Every call of a dispatch is of a subscriber at its position. -/
theorem mem_operatorCall {ms : List (Method η S F D)} {data : Cell S F D α}
    {t : Call η S F D α} (h : t∈operatorCall 0 ms data) :
    ∃ i,ms[i]?=some t.method ∧ t.data=extend i data := by
  rw [operatorCall_eq] at h
  obtain ⟨⟨m,i⟩,hmem,rfl⟩ := List.mem_map.mp h
  have hat := List.mem_zipIdx_iff_getElem?.mp hmem
  exact ⟨i,hat,rfl⟩

/-- The history does not change the payload. -/
theorem payload_extend (i : ℕ) (data : Cell S F D α) : payload (extend i data)=payload data := by
  cases data <;> rfl

/-- Leaf handlers add nothing to the clock. -/
theorem lag_of_leaf {m : Method η S F D} (h : target m=none) : lag m=0 := by
  cases m with
  | functor f => rfl
  | bind obj ptrFunc => rfl
  | sync callback => cases h
  | fast queue => cases h
  | delay priority delay queue => cases h

variable [DecidableEq F] [DecidableEq D]

/-- Begin a dispatch of a channel. -/
def State.dispatch (net : Network η S F D) (s : State η S F D α) (c : Chan S F D)
    (data : Cell S F D α) : State η S F D α :=
  {s with
    calls := operatorCall 0 (net.registered c) data++s.calls
    dispatched := (c,data)::s.dispatched}

/-- `async_fast::operator()`. -/
def State.sendFast (s : State η S F D α) (f : F) (data : Cell S F D α) : State η S F D α :=
  let c := ((s.fast f).enqueue ⟨s.sends.length,data⟩).notify
  {s with fast := Function.update s.fast f c}

/-- `async_delay::operator()`. -/
def State.sendDelay (s : State η S F D α) (d : D) (priority delayPoint : ℤ)
    (data : Cell S F D α) (std : StdSort (Cell S F D α)) : State η S F D α :=
  let c := (s.delay d).operatorCall priority delayPoint data std
  {s with delay := Function.update s.delay d c}

/-- Make one call: a leaf handler returns, a bridging lambda sends. -/
def State.invoke (net : Network η S F D) (s : State η S F D α) (t : Call η S F D α)
    (std : StdSort (Cell S F D α)) : State η S F D α :=
  let s := {s with made := ⟨t.method,t.data,s.now⟩::s.made}
  match t.method with
  | .functor _ => s
  | .bind _ _ => s
  | .sync callback => s.dispatch net (.sync callback) t.data
  | .fast queue => s.sendFast queue t.data
  | .delay priority delay queue => s.sendDelay queue priority (s.now+delay) t.data std

/-- Note a send in the history. -/
def State.note (s : State η S F D α) (p : Parcel S F D α) : State η S F D α :=
  {s with sends := p::s.sends}

/-- One step. -/
def next (net : Network η S F D) (s : State η S F D α) :
    Act S F D α → Option (State η S F D α)
  | .tick reading => some {s with now := reading}
  | .sendSync c x =>
    if s.idle then
      let p : Parcel S F D α := ⟨x,.sync c,s.now,[]⟩
      some ((s.note p).dispatch net (.sync c) (some p))
    else none
  | .sendFast f x =>
    if s.idle then
      let p : Parcel S F D α := ⟨x,.fast f,s.now,[]⟩
      some ((s.note p).sendFast f (some p))
    else none
  | .sendDelay d priority delayPoint x std =>
    if s.idle then
      let p : Parcel S F D α := ⟨x,.delay d,delayPoint,[]⟩
      some ((s.note p).sendDelay d priority delayPoint (some p) std)
    else none
  | .getFast f position =>
    if s.idle then
      match (s.fast f).semWait.bind fun c => c.waitDequeue position with
      | none => none
      | some (t,c) => some ({s with fast := Function.update s.fast f c}.dispatch net (.fast f)
          t.data)
    else none
  | .semWait d =>
    if s.idle then
      match (s.delay d).semWait with
      | none => none
      | some c => some {s with
          delay := Function.update s.delay d c
          waiting := Function.update s.waiting d (s.waiting d+1)}
    else none
  | .handOver d =>
    if s.idle ∧ 0 < s.waiting d then
      match (s.delay d).moveBack with
      | none => none
      | some (t,c) =>
        if s.now < t.timestamp then none
        else some ({s with
          delay := Function.update s.delay d c
          waiting := Function.update s.waiting d (s.waiting d-1)
          running := some d}.dispatch net (.delay d) t.data.join)
    else none
  | .call std =>
    match s.calls with
    | [] => none
    | t::rest => some ({s with calls := rest}.invoke net t std)
  | .popBack =>
    match s.calls,s.running with
    | [],some d =>
      match (s.delay d).popBack with
      | none => none
      | some (_,c) => some {s with
          delay := Function.update s.delay d c
          running := none}
    | _,_ => none

/-- What one accepted step does. -/
inductive Effect (net : Network η S F D) (s : State η S F D α) :
    Act S F D α → State η S F D α → Prop
  | tick (reading : ℤ) : Effect net s (.tick reading) {s with now := reading}
  | sendSync (c : S) (x : α) : s.calls=[] → s.running=none →
      Effect net s (.sendSync c x) ((s.note ⟨x,.sync c,s.now,[]⟩).dispatch net (.sync c)
        (some ⟨x,.sync c,s.now,[]⟩))
  | sendFast (f : F) (x : α) : s.calls=[] → s.running=none →
      Effect net s (.sendFast f x) ((s.note ⟨x,.fast f,s.now,[]⟩).sendFast f
        (some ⟨x,.fast f,s.now,[]⟩))
  | sendDelay (d : D) (priority delayPoint : ℤ) (x : α) (std : StdSort (Cell S F D α)) :
      s.calls=[] → s.running=none →
      Effect net s (.sendDelay d priority delayPoint x std)
        ((s.note ⟨x,.delay d,delayPoint,[]⟩).sendDelay d priority delayPoint
          (some ⟨x,.delay d,delayPoint,[]⟩) std)
  | getFast (f : F) (position : ℕ) (t : Tuple (Cell S F D α)) (c c' : AsyncFast (Cell S F D α)) :
      s.calls=[] → s.running=none → (s.fast f).semWait=some c →
      c.waitDequeue position=some (t,c') →
      Effect net s (.getFast f position)
        ({s with fast := Function.update s.fast f c'}.dispatch net (.fast f) t.data)
  | semWait (d : D) (c : AsyncDelay (Cell S F D α)) : s.calls=[] → s.running=none →
      (s.delay d).semWait=some c →
      Effect net s (.semWait d) {s with
        delay := Function.update s.delay d c
        waiting := Function.update s.waiting d (s.waiting d+1)}
  | handOver (d : D) (t : Message (Cell S F D α)) (c : AsyncDelay (Cell S F D α)) :
      s.calls=[] → s.running=none → 0 < s.waiting d → (s.delay d).moveBack=some (t,c) →
      t.timestamp ≤ s.now →
      Effect net s (.handOver d) ({s with
        delay := Function.update s.delay d c
        waiting := Function.update s.waiting d (s.waiting d-1)
        running := some d}.dispatch net (.delay d) t.data.join)
  | call (std : StdSort (Cell S F D α)) (t : Call η S F D α) (rest : List (Call η S F D α)) :
      s.calls=t::rest → Effect net s (.call std) ({s with calls := rest}.invoke net t std)
  | popBack (d : D) (b : Message (Cell S F D α)) (c : AsyncDelay (Cell S F D α)) :
      s.calls=[] → s.running=some d → (s.delay d).popBack=some (b,c) →
      Effect net s .popBack {s with delay := Function.update s.delay d c,running := none}

/-- The step function has no other effects. -/
theorem next_effect {net : Network η S F D} {s s' : State η S F D α} {a : Act S F D α}
    (h : next net s a=some s') : Effect net s a s' := by
  cases a with
  | tick reading =>
    cases h
    exact .tick reading
  | sendSync c x =>
    simp only [next] at h
    split at h <;> cases h
    rename_i hidle
    obtain ⟨hcalls,hrun⟩ := (idle_iff s).mp hidle
    exact .sendSync c x hcalls hrun
  | sendFast f x =>
    simp only [next] at h
    split at h <;> cases h
    rename_i hidle
    obtain ⟨hcalls,hrun⟩ := (idle_iff s).mp hidle
    exact .sendFast f x hcalls hrun
  | sendDelay d priority delayPoint x std =>
    simp only [next] at h
    split at h <;> cases h
    rename_i hidle
    obtain ⟨hcalls,hrun⟩ := (idle_iff s).mp hidle
    exact .sendDelay d priority delayPoint x std hcalls hrun
  | getFast f position =>
    simp only [next] at h
    split at h
    · rename_i hidle
      obtain ⟨hcalls,hrun⟩ := (idle_iff s).mp hidle
      split at h
      · cases h
      · rename_i t c' ht
        cases h
        obtain ⟨c,hc,hd⟩ := Option.bind_eq_some_iff.mp ht
        exact .getFast f position t c c' hcalls hrun hc hd
    · cases h
  | semWait d =>
    simp only [next] at h
    split at h
    · rename_i hidle
      obtain ⟨hcalls,hrun⟩ := (idle_iff s).mp hidle
      split at h
      · cases h
      · rename_i c hc
        cases h
        exact .semWait d c hcalls hrun hc
    · cases h
  | handOver d =>
    simp only [next] at h
    split at h
    · rename_i hidle
      obtain ⟨hcalls,hrun⟩ := (idle_iff s).mp hidle.1
      split at h
      · cases h
      · rename_i t c hm
        split at h
        · cases h
        · rename_i hdue
          cases h
          exact .handOver d t c hcalls hrun hidle.2 hm (by omega)
    · cases h
  | call std =>
    simp only [next] at h
    split at h
    · cases h
    · rename_i t rest hcalls
      cases h
      exact .call std t rest hcalls
  | popBack =>
    simp only [next] at h
    split at h
    · rename_i d hcalls hrun
      split at h
      · cases h
      · rename_i b c hp
        cases h
        exact .popBack d b c hcalls hrun hp
    · cases h

/-- The subscriber lists of a small network: a `sync` feeds a delayed channel
directly and through an undelayed one, and has a handler of its own. -/
def relayRegistered : Chan (Fin 1) (Fin 1) (Fin 1) → List (Method ℕ (Fin 1) (Fin 1) (Fin 1))
  | .sync _ => [.delay 1 10 0,.fast 0,.functor 5]
  | .fast _ => [.delay 2 20 0]
  | .delay _ => [.functor 7,.bind 8 9]

/-- Every bridge of the small network leads to a later kind of channel. -/
def relayRank : Chan (Fin 1) (Fin 1) (Fin 1) → ℕ
  | .sync _ => 2
  | .fast _ => 1
  | .delay _ => 0

/-- The small network. -/
def relay : Network ℕ (Fin 1) (Fin 1) (Fin 1) where
  registered := relayRegistered
  acyclic := by
    refine acyclic_of_rank relayRank fun u e he v hv => ?_
    cases u with
    | sync c =>
      simp only [relayRegistered,List.mem_cons,List.not_mem_nil,or_false] at he
      rcases he with rfl|rfl|rfl <;> cases hv <;> simp only [relayRank] <;> omega
    | fast c =>
      simp only [relayRegistered,List.mem_cons,List.not_mem_nil,or_false] at he
      subst he
      cases hv
      simp only [relayRank]
      omega
    | delay c =>
      simp only [relayRegistered,List.mem_cons,List.not_mem_nil,or_false] at he
      rcases he with rfl|rfl <;> cases hv

end FastEventSystem.ChannelNetwork
