import FastEventSystem.ChannelNetwork

/-!
# End-to-end delays through a network

While the clock does not go back, every copy of a payload is where the route in
its history leads, and its time plus the delays along that route is not after
the clock in an undelayed channel, not after the timestamp in a delayed one. So
no handler at the end of a route is called before the delays of that route have
passed.
-/

namespace FastEventSystem.NetworkDelay

open AcyclicFlow MessageOrder DelayChannel FastChannel SyncRegistry ChannelNetwork GuardedRuns

variable {η S F D α : Type*}

/-- The time of a send plus the delays along the route. -/
def due (net : Network η S F D) (p : Parcel S F D α) : ℤ :=
  p.time+net.wiring.measure lag p.origin p.route

/-- The copy stems from a recorded send. -/
def Sent (sends : List (Parcel S F D α)) (p : Parcel S F D α) : Prop :=
  {p with route := []}∈sends

/-- A copy which is in a channel, and may be there at the given time. -/
structure InChannel (net : Network η S F D) (sends : List (Parcel S F D α)) (c : Chan S F D)
    (time : ℤ) (p : Parcel S F D α) : Prop where
  /-- Its route leads to the channel. -/
  place : net.wiring.place p.origin p.route=some c
  /-- The delays on its way have passed by then. -/
  due : due net p ≤ time
  /-- It was sent. -/
  sent : Sent sends p

/-- A copy which is given to a subscriber at the given time. -/
structure AtCall (net : Network η S F D) (sends : List (Parcel S F D α))
    (m : Method η S F D) (time : ℤ) (p : Parcel S F D α) : Prop where
  /-- Its route ends with the subscriber. -/
  arrive : net.wiring.arrive p.origin p.route=some m
  /-- The channel the subscriber sends to comes next. -/
  place : ∀ c,target m=some c → net.wiring.place p.origin p.route=some c
  /-- The delays on its way have passed when the subscriber's own has. -/
  due : due net p ≤ time+lag m
  /-- It was sent. -/
  sent : Sent sends p

/-- Every copy is on time. -/
structure Timely (net : Network η S F D) (s : State η S F D α) : Prop where
  /-- In the undelayed queues. -/
  fast : ∀ f,∀ t∈(s.fast f).queue,∀ p∈t.data,InChannel net s.sends (.fast f) s.now p
  /-- In the delayed queues. -/
  delay : ∀ d,∀ m∈(s.delay d).queue,∀ data∈m.data,∀ p∈data,
    InChannel net s.sends (.delay d) m.timestamp p
  /-- In the calls to be made. -/
  calls : ∀ t∈s.calls,∀ p∈t.data,AtCall net s.sends t.method s.now p
  /-- In the calls which were made. -/
  made : ∀ e∈s.made,∀ p∈e.data,AtCall net s.sends e.method e.reading p

/-- The clock does not go back. -/
def Forward (s : State η S F D α) : Act S F D α → Prop
  | .tick reading => s.now ≤ reading
  | _ => True

instance (s : State η S F D α) : (a : Act S F D α) → Decidable (Forward s a)
  | .tick reading => inferInstanceAs (Decidable (s.now ≤ reading))
  | .sendSync .. | .sendFast .. | .sendDelay .. | .getFast .. | .semWait _ | .handOver _
  | .call _ | .popBack => inferInstanceAs (Decidable True)

/-- Waiting longer keeps a copy on time. -/
theorem InChannel.mono {net : Network η S F D} {sends sends' : List (Parcel S F D α)}
    {c : Chan S F D} {time time' : ℤ} {p : Parcel S F D α} (h : InChannel net sends c time p)
    (htime : time ≤ time') (hsends : ∀ q∈sends,q∈sends') : InChannel net sends' c time' p := by
  have hdue := h.due
  exact ⟨h.place,by omega,hsends _ h.sent⟩

/-- The same for calls. -/
theorem AtCall.mono {net : Network η S F D} {sends sends' : List (Parcel S F D α)}
    {m : Method η S F D} {time time' : ℤ} {p : Parcel S F D α} (h : AtCall net sends m time p)
    (htime : time ≤ time') (hsends : ∀ q∈sends,q∈sends') : AtCall net sends' m time' p := by
  have hdue := h.due
  exact ⟨h.arrive,h.place,by omega,hsends _ h.sent⟩

/-- A fresh send is where and when it was sent. -/
theorem inChannel_send (net : Network η S F D) (sends : List (Parcel S F D α)) (x : α)
    (c : Chan S F D) (time : ℤ) :
    InChannel net (⟨x,c,time,[]⟩::sends) c time ⟨x,c,time,[]⟩ where
  place := rfl
  due := by
    have hzero : due net (⟨x,c,time,[]⟩ : Parcel S F D α)=time+0 := rfl
    omega
  sent := List.mem_cons_self

/-- Calling the subscriber at a position adds its delay. -/
theorem InChannel.call {net : Network η S F D} {sends : List (Parcel S F D α)}
    {c : Chan S F D} {time : ℤ} {p : Parcel S F D α} (h : InChannel net sends c time p) {i : ℕ}
    {m : Method η S F D} (hm : (net.registered c)[i]?=some m) :
    AtCall net sends m time {p with route := p.route++[i]} where
  arrive := arrive_concat h.place hm
  place _ hc := place_concat h.place hm hc
  due := by
    have hmeasure := measure_concat lag h.place hm
    have hold := h.due
    unfold NetworkDelay.due at hold ⊢
    dsimp only
    omega
  sent := h.sent

/-- A bridging call puts the copy into the next channel on time. -/
theorem AtCall.inChannel {net : Network η S F D} {sends : List (Parcel S F D α)}
    {m : Method η S F D} {time : ℤ} {p : Parcel S F D α} (h : AtCall net sends m time p)
    {c : Chan S F D} (hc : target m=some c) : InChannel net sends c (time+lag m) p :=
  ⟨h.place c hc,h.due,h.sent⟩

/-- Noting another send forgets nothing. -/
theorem Timely.note {net : Network η S F D} {s : State η S F D α} (h : Timely net s)
    (p : Parcel S F D α) : Timely net (s.note p) := by
  have hsends : ∀ q∈s.sends,q∈p::s.sends := fun q hq => List.mem_cons_of_mem _ hq
  refine ⟨?_,?_,?_,?_⟩
  · exact fun f t ht q hq => (h.fast f t ht q hq).mono (le_refl _) hsends
  · exact fun d m hm data hdata q hq => (h.delay d m hm data hdata q hq).mono (le_refl _) hsends
  · exact fun t ht q hq => (h.calls t ht q hq).mono (le_refl _) hsends
  · exact fun e he q hq => (h.made e he q hq).mono (le_refl _) hsends

/-- Moving the clock forward keeps every copy on time. -/
theorem Timely.tick {net : Network η S F D} {s : State η S F D α} (h : Timely net s)
    {reading : ℤ} (hle : s.now ≤ reading) : Timely net {s with now := reading} := by
  refine ⟨?_,h.delay,?_,h.made⟩
  · exact fun f t ht q hq => (h.fast f t ht q hq).mono hle fun _ hq => hq
  · exact fun t ht q hq => (h.calls t ht q hq).mono hle fun _ hq => hq

/-- A dispatch gives copies to the subscribers of its channel. -/
theorem Timely.dispatch {net : Network η S F D} {s : State η S F D α} (h : Timely net s)
    {c : Chan S F D} {data : Cell S F D α}
    (hdata : ∀ p∈data,InChannel net s.sends c s.now p) : Timely net (s.dispatch net c data) := by
  refine ⟨h.fast,h.delay,?_,h.made⟩
  intro t ht q hq
  rcases List.mem_append.mp ht with ht|ht
  · obtain ⟨i,hi,hext⟩ := mem_operatorCall ht
    rw [hext] at hq
    obtain ⟨p,hp,rfl⟩ := Option.map_eq_some_iff.mp hq
    exact (hdata p hp).call hi
  · exact h.calls t ht q hq

section Fast

variable [DecidableEq F]

/-- A send to an `async_fast` stores the copy. -/
theorem Timely.sendFast {net : Network η S F D} {s : State η S F D α} (h : Timely net s)
    {f : F} {data : Cell S F D α}
    (hdata : ∀ p∈data,InChannel net s.sends (.fast f) s.now p) :
    Timely net (s.sendFast f data) := by
  refine ⟨?_,h.delay,h.calls,h.made⟩
  intro g t ht q hq
  by_cases hg : g=f
  · subst hg
    change t∈(Function.update s.fast g _ g).queue at ht
    rw [Function.update_self] at ht
    rcases List.mem_append.mp ht with ht|ht
    · exact h.fast g t ht q hq
    · rw [List.mem_singleton.mp ht] at hq
      exact hdata q hq
  · change t∈(Function.update s.fast f _ g).queue at ht
    rw [Function.update_of_ne hg] at ht
    exact h.fast g t ht q hq

/-- Taking tuples out of an `async_fast` keeps the others on time. -/
theorem Timely.takeFast {net : Network η S F D} {s : State η S F D α} (h : Timely net s)
    {f : F} {c : AsyncFast (Cell S F D α)} (hsub : ∀ t∈c.queue,t∈(s.fast f).queue) :
    Timely net {s with fast := Function.update s.fast f c} := by
  refine ⟨?_,h.delay,h.calls,h.made⟩
  intro g t ht q hq
  by_cases hg : g=f
  · subst hg
    change t∈(Function.update s.fast g c g).queue at ht
    rw [Function.update_self] at ht
    exact h.fast g t (hsub t ht) q hq
  · change t∈(Function.update s.fast f c g).queue at ht
    rw [Function.update_of_ne hg] at ht
    exact h.fast g t ht q hq

end Fast

section Delay

variable [DecidableEq D]

/-- A send to an `async_delay` stores the copy under its timestamp. -/
theorem Timely.sendDelay {net : Network η S F D} {s : State η S F D α} (h : Timely net s)
    {d : D} {priority delayPoint : ℤ} {data : Cell S F D α} {std : StdSort (Cell S F D α)}
    (hdata : ∀ p∈data,InChannel net s.sends (.delay d) delayPoint p) :
    Timely net (s.sendDelay d priority delayPoint data std) := by
  refine ⟨h.fast,?_,h.calls,h.made⟩
  intro e m hm cell hcell q hq
  by_cases he : e=d
  · subst he
    change m∈(Function.update s.delay e _ e).queue at hm
    rw [Function.update_self] at hm
    have hperm := operatorCall_perm (s.delay e) priority delayPoint data std
    rcases List.mem_cons.mp (hperm.subset hm) with rfl|hm
    · cases hcell
      exact hdata q hq
    · exact h.delay e m hm cell hcell q hq
  · change m∈(Function.update s.delay d _ e).queue at hm
    rw [Function.update_of_ne he] at hm
    exact h.delay e m hm cell hcell q hq

/-- Emptying or taking entries of an `async_delay` keeps the others on time. -/
theorem Timely.takeDelay {net : Network η S F D} {s : State η S F D α} (h : Timely net s)
    {d : D} {c : AsyncDelay (Cell S F D α)} (waiting : D → ℕ) (running : Option D)
    (hsub : ∀ m∈c.queue,m.data≠none → m∈(s.delay d).queue) :
    Timely net {s with
      delay := Function.update s.delay d c
      waiting := waiting
      running := running} := by
  refine ⟨h.fast,?_,h.calls,h.made⟩
  intro e m hm cell hcell q hq
  by_cases he : e=d
  · subst he
    change m∈(Function.update s.delay e c e).queue at hm
    rw [Function.update_self] at hm
    have hne : m.data≠none := fun hnone => nomatch hnone.symm.trans hcell
    exact h.delay e m (hsub m hm hne) cell hcell q hq
  · change m∈(Function.update s.delay d c e).queue at hm
    rw [Function.update_of_ne he] at hm
    exact h.delay e m hm cell hcell q hq

end Delay

variable [DecidableEq F] [DecidableEq D]

/-- Making a call records it, and a bridging call passes the copy on. -/
theorem Timely.invoke {net : Network η S F D} {s : State η S F D α} {t : Call η S F D α}
    (h : Timely net s) (ht : ∀ p∈t.data,AtCall net s.sends t.method s.now p)
    (std : StdSort (Cell S F D α)) : Timely net (s.invoke net t std) := by
  have hmade : Timely net {s with made := ⟨t.method,t.data,s.now⟩::s.made} := by
    refine ⟨h.fast,h.delay,h.calls,?_⟩
    intro e he
    rcases List.mem_cons.mp he with rfl|he
    · exact ht
    · exact h.made e he
  obtain ⟨m,data⟩ := t
  cases m with
  | functor f => exact hmade
  | bind obj ptrFunc => exact hmade
  | sync callback =>
    refine hmade.dispatch fun p hp => ((ht p hp).inChannel rfl).mono ?_ fun _ hq => hq
    exact (Int.add_zero s.now).le
  | fast queue =>
    refine hmade.sendFast fun p hp => ((ht p hp).inChannel rfl).mono ?_ fun _ hq => hq
    exact (Int.add_zero s.now).le
  | delay priority delay queue =>
    exact hmade.sendDelay fun p hp => (ht p hp).inChannel rfl

/-- Every step under a clock which does not go back keeps every copy on time. -/
theorem timely_step {net : Network η S F D} {s s' : State η S F D α} {a : Act S F D α}
    (hi : Timely net s) (hok : Forward s a) (h : next net s a=some s') : Timely net s' := by
  cases next_effect h with
  | tick reading => exact hi.tick hok
  | sendSync c x _ _ =>
    refine (hi.note _).dispatch fun p hp => ?_
    cases hp
    exact inChannel_send net s.sends x (.sync c) s.now
  | sendFast f x _ _ =>
    refine (hi.note _).sendFast fun p hp => ?_
    cases hp
    exact inChannel_send net s.sends x (.fast f) s.now
  | sendDelay d priority delayPoint x std _ _ =>
    refine (hi.note _).sendDelay fun p hp => ?_
    cases hp
    exact inChannel_send net s.sends x (.delay d) delayPoint
  | getFast f position t c c' _ _ hw hd =>
    obtain ⟨hqueue,-⟩ := FastChannel.semWait_eq_some hw
    obtain ⟨hperm,-⟩ := waitDequeue_eq_some hd
    rw [hqueue] at hperm
    have htake := hi.takeFast (f := f) (c := c') fun u hu =>
      hperm.symm.subset (List.mem_cons_of_mem _ hu)
    exact htake.dispatch (hi.fast f t (hperm.symm.subset List.mem_cons_self))
  | semWait d c _ _ hw =>
    obtain ⟨hqueue,-⟩ := DelayChannel.semWait_eq_some hw
    exact hi.takeDelay _ _ fun m hm _ => hqueue ▸ hm
  | handOver d t c _ _ _ hm hdue =>
    obtain ⟨rest,hq,hq',-⟩ := moveBack_eq_some hm
    have htake := hi.takeDelay (d := d) (c := c) (Function.update s.waiting d (s.waiting d-1))
      (some d) fun m hmem hne => by
        rw [hq'] at hmem
        rcases List.mem_cons.mp hmem with rfl|hmem
        · exact False.elim (hne rfl)
        · rw [hq]
          exact List.mem_cons_of_mem _ hmem
    refine htake.dispatch fun p hp => ?_
    have hcell : t.data=some (some p) := Option.join_eq_some_iff.mp hp
    have hmem : t∈(s.delay d).queue := by
      rw [hq]
      exact List.mem_cons_self
    exact (hi.delay d t hmem _ hcell p rfl).mono hdue fun _ hq => hq
  | call std t rest hcalls =>
    have hrest : Timely net {s with calls := rest} := by
      refine ⟨hi.fast,hi.delay,?_,hi.made⟩
      intro u hu
      exact hi.calls u (hcalls ▸ List.mem_cons_of_mem _ hu)
    exact hrest.invoke (hi.calls t (hcalls ▸ List.mem_cons_self)) std
  | popBack d b c _ _ hp =>
    obtain ⟨hq,-⟩ := popBack_eq_some hp
    exact hi.takeDelay _ _ fun m hm _ => hq ▸ List.mem_cons_of_mem _ hm

omit [DecidableEq F] [DecidableEq D] in
/-- Nothing is on its way. -/
theorem timely_start (net : Network η S F D) (start : ℤ) :
    Timely net (.start start : State η S F D α) where
  fast _ _ h := False.elim (List.not_mem_nil h)
  delay _ _ h := False.elim (List.not_mem_nil h)
  calls _ h := False.elim (List.not_mem_nil h)
  made _ h := False.elim (List.not_mem_nil h)

/-- In every run under a clock which does not go back, a payload is given to a
leaf handler only by a route from the channel it was sent to, and not before
its time plus the delays along that route. -/
theorem end_to_end_delay (net : Network η S F D) {start : ℤ} {acts : List (Act S F D α)}
    {s : State η S F D α} (h : Reaches (next net) Forward (.start start) acts s)
    {e : Made η S F D α} (he : e∈s.made) (hleaf : target e.method=none)
    {p : Parcel S F D α} (hp : e.data=some p) :
    {p with route := []}∈s.sends ∧
      net.wiring.arrive p.origin p.route=some e.method ∧
      p.time+net.wiring.measure lag p.origin p.route ≤ e.reading := by
  have htimely : Timely net s :=
    h.invariant (timely_start net start) fun hi hok hn => timely_step hi hok hn
  have hcall := htimely.made e he p hp
  have hdue := hcall.due
  rw [lag_of_leaf hleaf,Int.add_zero] at hdue
  exact ⟨hcall.sent,hcall.arrive,hdue⟩

/-- A send at clock 100, received from the undelayed channel at 103 and from
the delayed one at 112. -/
def relayRun : List (Act (Fin 1) (Fin 1) (Fin 1) ℕ) :=
  let std := insertionSort (Cell (Fin 1) (Fin 1) (Fin 1) ℕ)
  [.sendSync 0 42,.call std,.call std,.call std,.tick 103,.getFast 0 0,.call std,.semWait 0,
    .tick 112,.handOver 0,.call std,.call std,.popBack]

/-- The handler behind the direct bridge is called twelve after the send, by
the route whose delay is ten. -/
theorem end_to_end_delay_relay :
    ∃ s,Reaches (next relay) Forward (.start 100) relayRun s ∧
      ⟨.bind 8 9,some ⟨42,.sync 0,100,[0,1]⟩,112⟩∈s.made ∧
        relay.wiring.arrive (.sync 0) [0,1]=some (.bind 8 9) ∧
        100+relay.wiring.measure lag (.sync 0) [0,1] ≤ 112 := by
  obtain ⟨s,hs,hseen⟩ := reaches_of_replay (next relay) Forward (.start 100) relayRun
    (fun s => s.made.head?) (some ⟨.bind 8 9,some ⟨42,.sync 0,100,[0,1]⟩,112⟩) (by decide)
  have hmem := List.mem_of_mem_head? hseen
  have hbound := end_to_end_delay relay hs hmem rfl rfl
  exact ⟨s,hs,hmem,hbound.2.1,hbound.2.2⟩

end FastEventSystem.NetworkDelay
