import FastEventSystem.DelayDelivery
import FastEventSystem.FastChannel

/-!
# Bridges into one delayed channel

`sync`, `async_fast`, `async_delay` and `bind` each have a `connect` which
forwards every event to an `async_delay` with a priority and a delay. Three of
them read the clock and send to the reading plus the delay; `bind` sends to
the delay itself. Events come through any mixture of bridges, next to other
sends and to any calls which receive, at readings which do not go back. Every
sent message carries the number of its send, a history no operation reads.
-/

namespace FastEventSystem.DelayBridges

open MessageOrder DelayChannel FastChannel DelayDelivery GuardedRuns

/-- The class whose `connect` made a bridge. -/
inductive Kind where
  /-- `sync::connect`. -/
  | sync
  /-- `async_fast::connect`. -/
  | asyncFast
  /-- `async_delay::connect`. -/
  | asyncDelay
  /-- `bind::connect`. -/
  | bind
  deriving DecidableEq

/-- A bridge, with the arguments of its `connect`. -/
structure Bridge where
  /-- Which `connect` made it. -/
  kind : Kind
  /-- The captured priority. -/
  priority : ℤ
  /-- The captured delay. -/
  delay : ℤ
  deriving DecidableEq

/-- Priority and point in time of a forwarded event which reads the clock. -/
def clockConnect (priority delay reading : ℤ) : ℤ×ℤ := (priority,reading+delay)

/-- The lambda of `sync::connect`. -/
def syncConnect (priority delay reading : ℤ) : ℤ×ℤ := clockConnect priority delay reading

/-- The lambda of `async_fast::connect`. -/
def asyncFastConnect (priority delay reading : ℤ) : ℤ×ℤ := clockConnect priority delay reading

/-- The lambda of `async_delay::connect`. -/
def asyncDelayConnect (priority delay reading : ℤ) : ℤ×ℤ := clockConnect priority delay reading

/-- The lambda of `bind::connect`, which does not read the clock. -/
def bindConnect (priority delay : ℤ) : ℤ×ℤ := (priority,delay)

/-- The priority and point in time with which a bridge calls the channel. -/
def Bridge.forwards (b : Bridge) (reading : ℤ) : ℤ×ℤ :=
  match b.kind with
  | .sync => syncConnect b.priority b.delay reading
  | .asyncFast => asyncFastConnect b.priority b.delay reading
  | .asyncDelay => asyncDelayConnect b.priority b.delay reading
  | .bind => bindConnect b.priority b.delay

/-- A bridge keeps its priority. -/
theorem forwards_priority (b : Bridge) (reading : ℤ) : (b.forwards reading).1=b.priority := by
  unfold Bridge.forwards
  split <;> rfl

/-- The point in time is the reading plus the delay exactly for the bridges
which read the clock, and for `bind` at the reading zero. -/
theorem forwards_eq_iff (b : Bridge) (reading : ℤ) :
    b.forwards reading=(b.priority,reading+b.delay) ↔ (b.kind=.bind → reading=0) := by
  cases b with
  | mk kind priority delay =>
    cases kind with
    | sync | asyncFast | asyncDelay => exact iff_of_true rfl nofun
    | bind =>
      simp only [Bridge.forwards,bindConnect,Prod.mk.injEq,true_and,forall_const]
      omega

variable {ι α : Type*}

/-- An event at the moment a bridge forwards it. -/
structure Event (α : Type*) where
  /-- The bridge. -/
  bridge : Bridge
  /-- The clock at that moment. -/
  reading : ℤ
  /-- The message put into the channel. -/
  message : Message (Tuple α)
  deriving DecidableEq

/-- The channel with its callers, the clock and the history of bridged events. -/
structure State (ι α : Type*) where
  /-- The channel and its callers. -/
  calls : DelayCalls.State ι (Tuple α)
  /-- Latest reading of the clock. -/
  clock : ℤ
  /-- Number of steps so far; a send takes it as its own. -/
  tickets : ℕ
  /-- History of bridged events. -/
  bridged : List (Event α)

/-- Nothing happened yet, at some reading of the clock. -/
def State.start (clock : ℤ) : State ι α := ⟨.start,clock,0,[]⟩

/-- One step of the environment or of a caller. -/
inductive Act (ι α : Type*) where
  /-- An event comes through a bridge. -/
  | bridges (b : Bridge) (reading : ℤ) (data : α) (std : StdSort (Tuple α))
  /-- Somebody sends to the channel directly. -/
  | sends (priority delayPoint : ℤ) (data : α) (std : StdSort (Tuple α))
  /-- A step of a receiving call. -/
  | receives (a : DelayCalls.Act ι (Tuple α))

/-- The clock reading a step makes. -/
def Act.reading : Act ι α → Option ℤ
  | .bridges _ reading _ _ => some reading
  | .receives (.wait _ _ reading) => some reading
  | .receives (.poll _ reading) => some reading
  | .receives (.readClock _ reading) => some reading
  | _ => none

/-- The step of the channel behind a step. -/
def State.call (s : State ι α) : Act ι α → DelayCalls.Act ι (Tuple α)
  | .bridges b reading data std =>
    .operatorCall (b.forwards reading).1 (b.forwards reading).2 ⟨s.tickets,data⟩ std
  | .sends priority delayPoint data std => .operatorCall priority delayPoint ⟨s.tickets,data⟩ std
  | .receives a => a

/-- The events bridged after a step. -/
def State.events (s : State ι α) : Act ι α → List (Event α)
  | .bridges b reading data _ => ⟨b,reading,(b.forwards reading).1,(b.forwards reading).2,
      some ⟨s.tickets,data⟩⟩::s.bridged
  | _ => s.bridged

/-- Whether the step is one of a receiving call or carries the number of a send. -/
def Act.proper : Act ι α → Bool
  | .receives (.operatorCall ..) => false
  | _ => true

variable [DecidableEq ι]

/-- Perform one step with `subscribers` connected handlers. -/
def next (subscribers : ℕ) (s : State ι α) (a : Act ι α) : Option (State ι α) :=
  if a.proper=true ∧ s.clock ≤ a.reading.getD s.clock then
    (DelayCalls.next subscribers s.calls (s.call a)).map fun calls =>
      ⟨calls,a.reading.getD s.clock,s.tickets+1,s.events a⟩
  else none

/-- Everything an accepted step does. -/
theorem next_eq_some {subscribers : ℕ} {s s' : State ι α} {a : Act ι α}
    (h : next subscribers s a=some s') :
    a.proper=true ∧ s.clock ≤ s'.clock ∧ s'.clock=a.reading.getD s.clock ∧
      DelayCalls.next subscribers s.calls (s.call a)=some s'.calls ∧ s'.tickets=s.tickets+1 ∧
      s'.bridged=s.events a := by
  unfold next at h
  split at h
  · rename_i hok
    obtain ⟨calls,hcalls,rfl⟩ := Option.map_eq_some_iff.mp h
    exact ⟨hok.1,hok.2,rfl,hcalls,rfl,rfl⟩
  · cases h

/-- What holds of the histories whatever the callers and their handlers do. -/
structure Recorded (s : State ι α) : Prop where
  /-- Sends are numbered in order. -/
  numbered : ∀ m∈s.calls.sent,∀ t∈m.data,t.ticket < s.tickets
  /-- A bridged event was sent as its bridge forwards it, at an earlier reading. -/
  bridged : ∀ e∈s.bridged,e.message∈s.calls.sent ∧ e.message.data.isSome=true ∧
    (e.message.priority,e.message.timestamp)=e.bridge.forwards e.reading ∧ e.reading ≤ s.clock
  /-- A message was due when it was handed over. -/
  due : ∀ h∈s.calls.handed,h.message.timestamp ≤ h.reading

omit [DecidableEq ι] in
/-- Nothing is recorded at the start. -/
theorem recorded_start (clock : ℤ) : Recorded (State.start clock : State ι α) :=
  ⟨fun _ h => False.elim (List.not_mem_nil h),fun _ h => False.elim (List.not_mem_nil h),
    fun _ h => False.elim (List.not_mem_nil h)⟩

/-- What a step of the channel does to its histories: it sends one message, or
hands over the back entry when it is due, or leaves both. -/
theorem histories_step {subscribers : ℕ} {s s' : DelayCalls.State ι α} {a : DelayCalls.Act ι α}
    (h : DelayCalls.next subscribers s a=some s') :
    (∃ priority delayPoint data std,a=.operatorCall priority delayPoint data std ∧
      s'.sent=⟨priority,delayPoint,some data⟩::s.sent ∧ s'.handed=s.handed) ∨
    (s'.sent=s.sent ∧ s'.handed=s.handed) ∨
    ∃ t rest reading,s.chan.queue=t::rest ∧ t.timestamp ≤ reading ∧ s'.sent=s.sent ∧
      s'.handed=⟨t,reading,rest⟩::s.handed := by
  cases DelayCalls.next_effect h with
  | operatorCall priority delayPoint data std =>
    exact .inl ⟨priority,delayPoint,data,std,rfl,rfl,rfl⟩
  | handsOver i reading t chan hf hm hdue =>
    obtain ⟨rest,hq,-,-⟩ := moveBack_eq_some hm
    exact .inr (.inr ⟨t,rest,reading,hq,hdue,rfl,by rw [hq]; rfl⟩)
  | stays | moves | semWait | handlerReturns | popBack | handlerThrows =>
    exact .inr (.inl ⟨rfl,rfl⟩)

omit [DecidableEq ι] in
/-- A send carries the number of its step. -/
theorem call_ticket {s : State ι α} {a : Act ι α} (hproper : a.proper=true)
    {priority delayPoint : ℤ} {t : Tuple α} {std : StdSort (Tuple α)}
    (h : s.call a=.operatorCall priority delayPoint t std) : t.ticket=s.tickets := by
  cases a with
  | bridges b reading data std =>
    cases h
    rfl
  | sends priority delayPoint data std =>
    cases h
    rfl
  | receives a =>
    subst h
    contradiction

omit [DecidableEq ι] in
/-- A bridged event is a send, at a reading of its own. -/
theorem mem_events {s : State ι α} {a : Act ι α} {e : Event α} (h : e∈s.events a) :
    e∈s.bridged ∨ ∃ data std,a=.bridges e.bridge e.reading data std ∧
      e.message=⟨(e.bridge.forwards e.reading).1,(e.bridge.forwards e.reading).2,
        some ⟨s.tickets,data⟩⟩ := by
  cases a with
  | bridges b reading data std =>
    rcases List.mem_cons.mp h with rfl|h
    · exact .inr ⟨data,std,rfl,rfl⟩
    · exact .inl h
  | sends | receives => exact .inl h

/-- Every step keeps the records. -/
theorem recorded_step {subscribers : ℕ} {s s' : State ι α} {a : Act ι α} (hr : Recorded s)
    (h : next subscribers s a=some s') : Recorded s' := by
  obtain ⟨hproper,hclock,hreading,hcalls,htickets,hevents⟩ := next_eq_some h
  have hsub : ∀ m∈s.calls.sent,m∈s'.calls.sent := by
    intro m hm
    rcases histories_step hcalls with ⟨p,d,data,std,-,hsent,-⟩|⟨hsent,-⟩|⟨t,rest,r,-,-,hsent,-⟩
    · rw [hsent]
      exact List.mem_cons_of_mem _ hm
    · rw [hsent]
      exact hm
    · rw [hsent]
      exact hm
  refine ⟨?_,?_,?_⟩
  · intro m hm t ht
    rw [htickets]
    rcases histories_step hcalls with ⟨p,d,data,std,hcall,hsent,-⟩|⟨hsent,-⟩|
      ⟨u,rest,r,-,-,hsent,-⟩
    · rw [hsent] at hm
      rcases List.mem_cons.mp hm with rfl|hm
      · obtain rfl : data=t := Option.some.inj ht
        rw [call_ticket hproper hcall]
        exact Nat.lt_succ_self _
      · exact Nat.lt_succ_of_lt (hr.numbered m hm t ht)
    · rw [hsent] at hm
      exact Nat.lt_succ_of_lt (hr.numbered m hm t ht)
    · rw [hsent] at hm
      exact Nat.lt_succ_of_lt (hr.numbered m hm t ht)
  · intro e he
    rw [hevents] at he
    rcases mem_events he with he|⟨data,std,rfl,hmessage⟩
    · obtain ⟨hsent,hsome,hforwards,hle⟩ := hr.bridged e he
      exact ⟨hsub _ hsent,hsome,hforwards,hle.trans hclock⟩
    · have hcalls' := Option.some.inj hcalls
      refine ⟨?_,by rw [hmessage]; rfl,by rw [hmessage],by rw [hreading]; exact le_refl _⟩
      rw [hmessage,←hcalls']
      exact List.mem_cons_self
  · intro e he
    rcases histories_step hcalls with ⟨p,d,data,std,-,-,hhanded⟩|⟨-,hhanded⟩|
      ⟨t,rest,r,-,hdue,-,hhanded⟩
    · rw [hhanded] at he
      exact hr.due e he
    · rw [hhanded] at he
      exact hr.due e he
    · rw [hhanded] at he
      rcases List.mem_cons.mp he with rfl|he
      · exact hdue
      · exact hr.due e he

/-- The handlers of the channel return and do not disturb its dispatches. -/
def Steady (s : State ι α) (a : Act ι α) : Prop := Calm s.calls (s.call a)

/-- Every event through a `bind` bridge comes at the reading zero. -/
def AtZero (acts : List (Act ι α)) : Prop :=
  ∀ b reading data std,.bridges b reading data std∈acts → b.kind=.bind → reading=0

/-- Two events of one delay, the second at a later reading: when the message of
the second is handed over, that of the first has been before. -/
def BridgingOrder (s : State ι α) : Prop :=
  ∀ e∈s.bridged,∀ e'∈s.bridged,e.bridge.delay=e'.bridge.delay → e.reading < e'.reading →
    ∀ later h earlier,s.calls.handed=later++h::earlier → h.message=e'.message →
      ∃ g∈earlier,g.message=e.message

/-- The records hold in every state of every run. -/
theorem recorded_of_reaches {ok : State ι α → Act ι α → Prop} {subscribers : ℕ} {clock : ℤ}
    {acts : List (Act ι α)} {s : State ι α}
    (h : Reaches (next subscribers) ok (.start clock) acts s) : Recorded s :=
  h.invariant (recorded_start clock) fun hr _ hn => recorded_step hr hn

/-- The orderly invariant holds while the handlers behave. -/
theorem orderly_of_steady {subscribers : ℕ} {clock : ℤ} {acts : List (Act ι α)} {s : State ι α}
    (h : Reaches (next subscribers) Steady (.start clock) acts s) : Orderly s.calls := by
  induction h with
  | start => exact orderly_start
  | step a _ hok hn ih => exact orderly_step ih hok (next_eq_some hn).2.2.2.1

/-- The bridged events are the ones the steps name. -/
theorem bridged_iff {ok : State ι α → Act ι α → Prop} {subscribers : ℕ} {clock : ℤ}
    {acts : List (Act ι α)} {s : State ι α}
    (h : Reaches (next subscribers) ok (.start clock) acts s) :
    AtZero acts ↔ ∀ e∈s.bridged,e.bridge.kind=.bind → e.reading=0 := by
  induction h with
  | start =>
    exact iff_of_true (fun _ _ _ _ h => False.elim (List.not_mem_nil h))
      fun _ h => False.elim (List.not_mem_nil h)
  | @step acts s s' a hrun hok hn ih =>
    have hevents := (next_eq_some hn).2.2.2.2.2
    refine ⟨fun hzero e he => ?_,fun hzero b reading data std hmem => ?_⟩
    · rw [hevents] at he
      rcases mem_events he with he|⟨data,std,rfl,-⟩
      · exact ih.mp (fun b r d std hm => hzero b r d std (List.mem_append_left _ hm)) e he
      · exact hzero _ _ data std (List.mem_append_right _ List.mem_cons_self)
    · have hold : AtZero acts := by
        refine ih.mpr fun e he => hzero e ?_
        rw [hevents]
        cases a with
        | bridges => exact List.mem_cons_of_mem _ he
        | sends | receives => exact he
      rcases List.mem_append.mp hmem with hmem|hmem
      · exact hold b reading data std hmem
      · rw [List.mem_singleton] at hmem
        subst hmem
        exact hzero _ (by rw [hevents]; exact List.mem_cons_self)

omit [DecidableEq ι] in
/-- Under the condition a bridged message is due its delay after its bridging. -/
theorem timestamp_eq {s : State ι α} (hr : Recorded s)
    (hzero : ∀ e∈s.bridged,e.bridge.kind=.bind → e.reading=0) {e : Event α} (he : e∈s.bridged) :
    e.message.timestamp=e.reading+e.bridge.delay := by
  have hforwards := (hr.bridged e he).2.2.1
  rw [(forwards_eq_iff _ _).mpr (hzero e he)] at hforwards
  exact congrArg Prod.snd hforwards

/-- A new event is not ahead of any earlier one, and its message is fresh. -/
theorem bridgingOrder_bridges {subscribers : ℕ} {s s' : State ι α} {b : Bridge} {reading : ℤ}
    {data : α} {std : StdSort (Tuple α)} (hi : BridgingOrder s) (hr : Recorded s)
    (ho : Orderly s.calls) (h : next subscribers s (.bridges b reading data std)=some s') :
    BridgingOrder s' := by
  obtain ⟨-,hclock,hreading,hcalls,-,hevents⟩ := next_eq_some h
  have hhanded : s'.calls.handed=s.calls.handed := by rw [←Option.some.inj hcalls]
  intro e he e' he' hdelay hlt later g earlier hsplit hmessage
  rw [hhanded] at hsplit
  rw [hevents] at he he'
  rcases mem_events he' with he'|⟨data',std',-,hnew⟩
  · rcases mem_events he with he|⟨data',std',hact,-⟩
    · exact hi e he e' he' hdelay hlt later g earlier hsplit hmessage
    · have hle := (hr.bridged e' he').2.2.2
      have hsame : reading=e.reading := by
        cases hact
        rfl
      have hnow : s'.clock=reading := hreading
      omega
  · have hsent : g.message∈s.calls.sent := by
      refine ho.split.symm.subset (List.mem_append_left _ (List.mem_map.mpr ⟨g,?_,rfl⟩))
      rw [hsplit]
      exact List.mem_append_right _ List.mem_cons_self
    have hticket := hr.numbered _ hsent ⟨s.tickets,data'⟩ (by rw [hmessage,hnew]; rfl)
    exact False.elim (Nat.lt_irrefl _ hticket)

/-- A message handed over has nothing due earlier behind it, so every earlier
event of its delay is past. -/
theorem bridgingOrder_receives {subscribers : ℕ} {s s' : State ι α}
    {a : DelayCalls.Act ι (Tuple α)} (hi : BridgingOrder s) (hr : Recorded s)
    (ho : Orderly s.calls) (hzero : ∀ e∈s.bridged,e.bridge.kind=.bind → e.reading=0)
    (h : next subscribers s (.receives a)=some s') : BridgingOrder s' := by
  obtain ⟨hproper,-,-,hcalls,-,hevents⟩ := next_eq_some h
  intro e he e' he' hdelay hlt later g earlier hsplit hmessage
  rw [hevents] at he he'
  have hkeep : s'.calls.handed=s.calls.handed → ∃ g∈earlier,g.message=e.message := by
    intro hhanded
    rw [hhanded] at hsplit
    exact hi e he e' he' hdelay hlt later g earlier hsplit hmessage
  rcases histories_step hcalls with ⟨p,d,data,std,-,-,hhanded⟩|⟨-,hhanded⟩|
    ⟨t,rest,reading,hq,-,-,hhanded⟩
  · exact hkeep hhanded
  · exact hkeep hhanded
  · rw [hhanded] at hsplit
    cases later with
    | cons first later =>
      exact hi e he e' he' hdelay hlt later g earlier (List.cons.inj hsplit).2 hmessage
    | nil =>
      obtain ⟨rfl,rfl⟩ := List.cons.inj hsplit
      have hearlier : e.message.timestamp < t.timestamp := by
        have hold := timestamp_eq hr hzero he
        have hnew := timestamp_eq hr hzero he'
        have heq : t.timestamp=e'.message.timestamp := congrArg Message.timestamp hmessage
        omega
      rcases List.mem_append.mp (ho.split.subset (hr.bridged e he).1) with hmem|hmem
      · obtain ⟨g,hg,heq⟩ := List.mem_map.mp hmem
        exact ⟨g,hg,heq⟩
      · -- still pending, it would be nearer to the back than the one handed over
        have hqueue := List.mem_of_mem_filter hmem
        have hsorted := ho.layered.sorted
        rw [hq] at hqueue hsorted
        rcases List.mem_cons.mp hqueue with heq|hrest
        · rw [heq] at hearlier
          exact False.elim (lt_irrefl _ hearlier)
        · have hle := ((messageComp_false_iff _ _).mp
            ((List.pairwise_cons.mp hsorted).1 _ hrest)).1
          omega

/-- Bridged events of one delay are dispatched in bridging order. -/
theorem bridgingOrder_of_steady {subscribers : ℕ} {clock : ℤ} {acts : List (Act ι α)}
    {s : State ι α} (h : Reaches (next subscribers) Steady (.start clock) acts s)
    (hzero : AtZero acts) : BridgingOrder s := by
  induction h with
  | start => exact fun _ h => False.elim (List.not_mem_nil h)
  | step a hrun hok hn ih =>
    have hbefore : AtZero _ := fun b r d std hm => hzero b r d std (List.mem_append_left _ hm)
    have hi := ih hbefore
    have hr := recorded_of_reaches hrun
    have ho := orderly_of_steady hrun
    cases a with
    | bridges b reading data std => exact bridgingOrder_bridges hi hr ho hn
    | receives a => exact bridgingOrder_receives hi hr ho ((bridged_iff hrun).mp hbefore) hn
    | sends priority delayPoint data std =>
      obtain ⟨-,-,-,hcalls,-,hevents⟩ := next_eq_some hn
      have hhanded := congrArg DelayCalls.State.handed (Option.some.inj hcalls)
      intro e he e' he' hdelay hlt later g earlier hsplit hmessage
      rw [hevents] at he he'
      rw [←hhanded] at hsplit
      exact hi e he e' he' hdelay hlt later g earlier hsplit hmessage

/-- The four bridges and time, over every mixture of bridged events, other
sends and receives at readings which do not go back. Every bridged message has
its bridge's priority; it is enqueued for its reading plus its delay, for all
of them, exactly when `bind` bridges are used at the reading zero only. In such
runs no message is dispatched less than its delay after it was bridged, and
events of equal delays at increasing readings are dispatched in bridging order
while the handlers of the channel return and do not disturb its dispatches. -/
theorem bridges_agree_iff_bind_at_zero (subscribers : ℕ) (clock : ℤ) {acts : List (Act ι α)}
    {s : State ι α} (h : Reaches (next subscribers) Unrestricted (.start clock) acts s) :
    (∀ e∈s.bridged,e.message∈s.calls.sent ∧ e.message.priority=e.bridge.priority) ∧
    ((∀ e∈s.bridged,e.message.timestamp=e.reading+e.bridge.delay) ↔ AtZero acts) ∧
    (AtZero acts → ∀ e∈s.bridged,∀ g∈s.calls.handed,g.message=e.message →
      e.reading+e.bridge.delay ≤ g.reading) ∧
    (AtZero acts → Reaches (next subscribers) Steady (.start clock) acts s →
      BridgingOrder s) := by
  have hr := recorded_of_reaches h
  refine ⟨fun e he => ⟨(hr.bridged e he).1,?_⟩,⟨fun htime => (bridged_iff h).mpr fun e he => ?_,
    fun hzero e he => timestamp_eq hr ((bridged_iff h).mp hzero) he⟩,
    fun hzero e he g hg heq => ?_,fun hzero hsteady => bridgingOrder_of_steady hsteady hzero⟩
  · exact (congrArg Prod.fst (hr.bridged e he).2.2.1).trans (forwards_priority _ _)
  · have hforwards := (hr.bridged e he).2.2.1
    have hpriority := (congrArg Prod.fst hforwards).trans (forwards_priority _ _)
    dsimp only at hpriority
    rw [htime e he,hpriority] at hforwards
    exact (forwards_eq_iff _ _).mp hforwards.symm
  · have hdue := hr.due g hg
    rw [heq,timestamp_eq hr ((bridged_iff h).mp hzero) he] at hdue
    exact hdue

/-- Events through a `sync` and an `async_fast` bridge of one delay, and a
`bind` bridge at the reading zero, all received. -/
def mixedRun : List (Act (Fin 1) ℕ) :=
  [.bridges ⟨.bind,0,5⟩ 0 10 (insertionSort _),.bridges ⟨.sync,1,5⟩ 2 20 (insertionSort _),
    .bridges ⟨.asyncFast,7,5⟩ 3 30 (insertionSort _),
    .receives (.get 0),.receives (.semWait 0),.receives (.readClock 0 6),
    .receives (.handlerReturns 0),.receives (.popBack 0),
    .receives (.get 0),.receives (.semWait 0),.receives (.readClock 0 7),
    .receives (.handlerReturns 0),.receives (.popBack 0)]

instance (s : State ι α) (a : Act ι α) : Decidable (Steady s a) :=
  inferInstanceAs (Decidable (Calm _ _))

/-- The mixed run dispatches the two oldest events in bridging order. -/
theorem bridges_agree_mixed :
    ∃ s,Reaches (next 1) Steady (.start 0) mixedRun s ∧
      s.calls.handed.map DelayCalls.Handed.message=
        [⟨1,7,some ⟨1,20⟩⟩,⟨0,5,some ⟨0,10⟩⟩] ∧
      (∀ e∈s.bridged,e.message.timestamp=e.reading+e.bridge.delay) ∧ BridgingOrder s := by
  obtain ⟨s,hs,hseen⟩ := reaches_of_replay (next 1) Steady (.start 0) mixedRun
    (fun s => s.calls.handed.map DelayCalls.Handed.message)
    [⟨1,7,some ⟨1,20⟩⟩,⟨0,5,some ⟨0,10⟩⟩] (by decide)
  have hzero : AtZero mixedRun := by
    intro b reading data std hmem hkind
    simp only [mixedRun,List.mem_cons,Act.bridges.injEq,List.not_mem_nil,or_false,
      reduceCtorEq] at hmem
    rcases hmem with ⟨-,rfl,-⟩|⟨rfl,-⟩|⟨rfl,-⟩
    · rfl
    · contradiction
    · contradiction
  have h := bridges_agree_iff_bind_at_zero 1 0 (hs.mono fun _ _ _ => trivial)
  exact ⟨s,hs,hseen,h.2.1.mpr hzero,h.2.2.2 hzero hs⟩

/-- An event through a `bind` bridge of delay 5 at the reading 100. -/
def bindRun : List (Act (Fin 1) ℕ) :=
  [.bridges ⟨.bind,0,5⟩ 100 10 (insertionSort _),
    .receives (.get 0),.receives (.semWait 0),.receives (.readClock 0 100)]

/-- The event is enqueued for the instant 5 and dispatched at the reading 100,
its delay not having passed. -/
theorem bind_bridge_ignores_clock :
    ∃ s,Reaches (next 1) Steady (.start 100) bindRun s ∧
      ∃ e∈s.bridged,∃ g∈s.calls.handed,g.message=e.message ∧
        e.message.timestamp≠e.reading+e.bridge.delay ∧
        g.reading < e.reading+e.bridge.delay := by
  obtain ⟨s,hs,hseen⟩ := reaches_of_replay (next 1) Steady (.start 100) bindRun
    (fun s => (s.calls.handed.map DelayCalls.Handed.message,
      s.calls.handed.map DelayCalls.Handed.reading,s.bridged))
    ([⟨0,5,some ⟨0,10⟩⟩],[100],[⟨⟨.bind,0,5⟩,100,⟨0,5,some ⟨0,10⟩⟩⟩]) (by decide)
  simp only [Prod.mk.injEq] at hseen
  obtain ⟨hmessages,hreadings,hbridged⟩ := hseen
  obtain ⟨g,hg,hmessage⟩ := List.map_eq_singleton_iff.mp hmessages
  rw [hg,List.map_singleton,List.singleton_inj] at hreadings
  refine ⟨s,hs,⟨⟨.bind,0,5⟩,100,⟨0,5,some ⟨0,10⟩⟩⟩,?_,g,?_,hmessage,by decide,?_⟩
  · rw [hbridged]
    exact List.mem_cons_self
  · rw [hg]
    exact List.mem_cons_self
  · rw [hreadings]
    decide

end FastEventSystem.DelayBridges
