import FastEventSystem.NetworkFlow

/-!
# Delivery of a network is independent of the schedule

Every step of a run other than sends and clock readings is paid for by the
sends: a receive from an undelayed channel is one step, a receive from a delayed
one takes three, every call of a subscriber is one. So every schedule ends, and
it can only end with all queues empty. By then every leaf handler was called
once for every send and every route from the channel of that send to the
handler, with the payload which was sent.
-/

namespace FastEventSystem.NetworkDelivery

open AcyclicFlow MessageOrder DelayChannel FastChannel SyncRegistry ChannelNetwork NetworkSound
  NetworkFlow PartyTotals GuardedRuns

variable {η S F D α : Type*}

/-- Steps of a receive itself: begin, hand over and pop for a delayed channel. -/
def workOwn : Chan S F D → ℕ
  | .sync _ => 0
  | .fast _ => 1
  | .delay _ => 3

/-- Every call is one step. -/
def workEdge (_ : Method η S F D) : ℕ := 1

/-- Payloads are counted. -/
def one (_ : Option α) : ℕ := 1

/-- Whether some pop is due. -/
def pops (s : State η S F D α) : ℕ := s.running.toList.length

/-- Steps of the receives and calls which were made. -/
def workDone (s : State η S F D α) : ℕ := done workOwn workEdge one s

/-- A dispatch is counted by its channel. -/
theorem workDone_dispatch (net : Network η S F D) (s : State η S F D α) (c : Chan S F D)
    (data : Cell S F D α) : workDone (s.dispatch net c data)=workOwn c+workDone s := by
  unfold workDone done
  change ((c,data)::s.dispatched |>.map _).sum+(s.made.map _).sum=_
  rw [List.map_cons,List.sum_cons,add_assoc]
  simp only [one,smul_eq_mul,mul_one]

section Calls

variable [DecidableEq F] [DecidableEq D]

/-- A call is one step, and a bridge to a `sync` costs no receive. -/
theorem workDone_invoke (net : Network η S F D) (s : State η S F D α) (t : Call η S F D α)
    (std : StdSort (Cell S F D α)) : workDone (s.invoke net t std)=workDone s+1 := by
  have hmade : workDone {s with made := ⟨t.method,t.data,s.now⟩::s.made}=workDone s+1 := by
    unfold workDone done
    change _+((⟨t.method,t.data,s.now⟩::s.made).map _).sum=_
    rw [List.map_cons,List.sum_cons]
    simp only [workEdge,one,smul_eq_mul,mul_one]
    omega
  obtain ⟨m,data⟩ := t
  cases m with
  | functor f => exact hmade
  | bind obj ptrFunc => exact hmade
  | sync callback =>
    refine (workDone_dispatch net _ _ _).trans ?_
    rw [hmade,workOwn,zero_add]
  | fast queue => exact hmade
  | delay priority delay queue => exact hmade

/-- Calls do not touch the receives in progress. -/
theorem invoke_waiting (net : Network η S F D) (s : State η S F D α) (t : Call η S F D α)
    (std : StdSort (Cell S F D α)) :
    (s.invoke net t std).waiting=s.waiting ∧ (s.invoke net t std).running=s.running := by
  obtain ⟨m,data⟩ := t
  cases m <;> exact ⟨rfl,rfl⟩

variable [Fintype D]

/-- Number of receives inside a wait loop. -/
def waits (s : State η S F D α) : ℕ := total (fun _ n => n) s.waiting

/-- A work step is paid by its receive or call, or by the change of the
receives in progress; other steps cost nothing. -/
theorem work_step {net : Network η S F D} {s s' : State η S F D α} {a : Act S F D α}
    (h : next net s a=some s') :
    (isWork a).toNat+pops s'+(workDone s+waits s)=pops s+(workDone s'+waits s') := by
  cases next_effect h with
  | tick reading =>
    change 0+pops s+_=_
    rw [zero_add]
    rfl
  | sendSync c x hcalls hrun =>
    rw [workDone_dispatch,workOwn,zero_add]
    change 0+pops s+_=_
    rw [zero_add]
    rfl
  | sendFast f x hcalls hrun =>
    change 0+pops s+_=_
    rw [zero_add]
    rfl
  | sendDelay d priority delayPoint x std hcalls hrun =>
    change 0+pops s+_=_
    rw [zero_add]
    rfl
  | getFast f position t c c' hcalls hrun hw hd =>
    rw [workDone_dispatch,workOwn]
    change 1+pops s+_=pops s+(1+workDone s+waits s)
    omega
  | semWait d c hcalls hrun hw =>
    have hwaits := total_gain (fun _ n => n) s.waiting d (x := s.waiting d+1) rfl
    change 1+pops s+_=pops s+(workDone s+total (fun _ n => n) (Function.update s.waiting d _))
    change _=waits s+1 at hwaits
    omega
  | handOver d t c hcalls hrun hwait hm hdue =>
    have hone : s.waiting d=s.waiting d-1+1 := by omega
    have hwaits := total_loss (fun _ n => n) s.waiting d hone
    have hpops : pops s=0 := by
      rw [pops,hrun]
      rfl
    rw [workDone_dispatch,workOwn]
    change 1+1+_=pops s+(3+workDone s+total (fun _ n => n) (Function.update s.waiting d _))
    change _=waits s at hwaits
    omega
  | call std t rest hcalls =>
    obtain ⟨hwaiting,hrunning⟩ := invoke_waiting net {s with calls := rest} t std
    have hdone := workDone_invoke net {s with calls := rest} t std
    have hwaits : waits ({s with calls := rest}.invoke net t std)=waits s :=
      congrArg (total fun _ n => n) hwaiting
    have hpops : pops ({s with calls := rest}.invoke net t std)=pops s :=
      congrArg (fun r => r.toList.length) hrunning
    rw [hdone,hwaits,hpops]
    change 1+pops s+_=pops s+(workDone s+1+waits s)
    omega
  | popBack d b c hcalls hrun hp =>
    have hpops : pops s=1 := by
      rw [pops,hrun]
      rfl
    change 1+0+_=pops s+(workDone s+waits s)
    omega

/-- The work steps of a run are those of its receives and calls, up to the
receives which are in progress. -/
theorem work_of_run {net : Network η S F D} {start : ℤ} {acts : List (Act S F D α)}
    {s : State η S F D α} {ok : State η S F D α → Act S F D α → Prop}
    (h : Reaches (next net) ok (.start start) acts s) :
    acts.countP isWork+pops s=workDone s+waits s := by
  induction h with
  | start =>
    have hzero : waits (.start start : State η S F D α)=0 := total_eq_zero _ _ fun _ => rfl
    rw [hzero]
    rfl
  | step a _ _ hn ih =>
    have hstep := work_step hn
    have hcount : [a].countP isWork=(isWork a).toNat := by
      cases ha : isWork a <;> simp only [List.countP_singleton,ha] <;> rfl
    rw [List.countP_append,hcount]
    omega

end Calls

/-- The channel and the payload of a send. -/
def sendOf : Act S F D α → Option (Chan S F D×α)
  | .sendSync c x => some (.sync c,x)
  | .sendFast f x => some (.fast f,x)
  | .sendDelay d _ _ x _ => some (.delay d,x)
  | _ => none

/-- The sends of a run are recorded, newest first. -/
theorem sends_of_run [DecidableEq F] [DecidableEq D] {net : Network η S F D} {start : ℤ}
    {acts : List (Act S F D α)} {s : State η S F D α}
    {ok : State η S F D α → Act S F D α → Prop}
    (h : Reaches (next net) ok (.start start) acts s) :
    (s.sends.map fun p => (p.origin,p.payload))=(acts.filterMap sendOf).reverse := by
  induction h with
  | start => rfl
  | step a _ _ hn ih =>
    rw [List.filterMap_append,List.reverse_append]
    cases next_effect hn with
    | tick | getFast | semWait | handOver | popBack => exact ih
    | sendSync | sendFast | sendDelay => exact congrArg (_::·) ih
    | call std t rest hcalls =>
      obtain ⟨m,data⟩ := t
      cases m <;> exact ih

/-- A work step is no send. -/
theorem sendOf_of_isWork {a : Act S F D α} (h : isWork a=true) : sendOf a=none := by
  cases a <;> first | rfl | cases h

/-- Only sends are recorded as such. -/
theorem sends_of_silent [DecidableEq F] [DecidableEq D] {net : Network η S F D}
    {s s' : State η S F D α} {a : Act S F D α} (hsilent : sendOf a=none)
    (h : next net s a=some s') : s'.sends=s.sends := by
  cases next_effect h with
  | tick | getFast | semWait | handOver | popBack => rfl
  | sendSync | sendFast | sendDelay => cases hsilent
  | call std t rest hcalls =>
    obtain ⟨m,data⟩ := t
    cases m <;> rfl

section Counting

variable [DecidableEq η] [DecidableEq S] [DecidableEq F] [DecidableEq D]

/-- The payloads with which a handler was called. -/
def delivered (m : Method η S F D) (s : State η S F D α) : Multiset (Option α) :=
  ((s.made.filter fun e => e.method=m).map fun e => payload e.data : List (Option α))

/-- Counting the calls of one handler gives its deliveries. -/
theorem done_only (m : Method η S F D) (s : State η S F D α) :
    done (fun _ => 0) (only m) (fun x => ({x} : Multiset (Option α))) s=delivered m s := by
  have hdispatched :
      (s.dispatched.map fun e => 0 • ({payload e.2} : Multiset (Option α))).sum=0 := by
    simp only [zero_nsmul,List.map_const',List.sum_replicate,nsmul_zero]
  have hmade : ∀ made : List (Made η S F D α),
      (made.map fun t => only m t.method • ({payload t.data} : Multiset (Option α))).sum=
        ((made.filter fun e => e.method=m).map fun e => payload e.data : List (Option α)) := by
    intro made
    induction made with
    | nil => rfl
    | cons e made ih =>
      rw [List.map_cons,List.sum_cons,ih]
      by_cases he : e.method=m
      · simp only [List.filter_cons,he,decide_true,if_true,List.map_cons,only,one_nsmul]
        rfl
      · simp only [List.filter_cons,he,decide_false,Bool.false_eq_true,if_false,only,zero_nsmul,
          zero_add]
  rw [done,hdispatched,hmade,zero_add]
  rfl

end Counting

section Delivery

variable [Finite S] [Fintype F] [Fintype D] (net : Network η S F D)

/-- The number of work steps which a list of sends pays for. -/
noncomputable def workOf (sends : List (Parcel S F D α)) : ℕ :=
  sentWorth net workOwn workEdge one sends

/-- Intact entries of a delayed queue are worth at least one step each. -/
theorem length_le_delayLoad {d : D} {entries : List (Message (Cell S F D α))}
    (h : ∀ m∈entries,m.Intact) (sem : CountingSemaphore.Semaphore) :
    entries.length ≤ delayLoad net workOwn workEdge one d ⟨entries,sem⟩ := by
  have hrate : 3 ≤ chanRate net workOwn workEdge (.delay d) := by
    rw [chanRate_eq,workOwn]
    omega
  induction entries with
  | nil => exact Nat.zero_le _
  | cons m entries ih =>
    obtain ⟨data,hdata⟩ := Option.isSome_iff_exists.mp (h m List.mem_cons_self)
    have hrest := ih fun m hm => h m (List.mem_cons_of_mem _ hm)
    rw [delayLoad] at hrest ⊢
    rw [List.map_cons,List.sum_cons,List.length_cons,hdata]
    change _ ≤ chanRate net workOwn workEdge (.delay d)*1+_
    dsimp only at hrest
    omega

/-- Receives inside a wait loop have their entries still to be dispatched. -/
theorem waits_le_pending [DecidableEq D] {s : State η S F D α} (hi : Sound net s) :
    waits s ≤ pending net workOwn workEdge one s := by
  have hone : ∀ d,s.waiting d ≤ delayLoad net workOwn workEdge one d (s.delay d) := by
    intro d
    have hcount := hi.delayCount d
    unfold popDue at hcount
    by_cases hrun : s.running=some d
    · obtain ⟨b,rest,hq,hb,hintact⟩ := hi.emptied d hrun
      have hload := length_le_delayLoad net (d := d) hintact (s.delay d).sem
      rw [if_pos hrun,hq,List.length_cons] at hcount
      rw [delayLoad,hq,List.map_cons,List.sum_cons,hb]
      rw [delayLoad] at hload
      change _ ≤ 0+_
      dsimp only at hload
      omega
    · have hload := length_le_delayLoad net (d := d) (hi.resting d hrun) (s.delay d).sem
      rw [if_neg hrun] at hcount
      change _ ≤ delayLoad net workOwn workEdge one d (s.delay d) at hload
      omega
  have htotal : waits s ≤ total (delayLoad net workOwn workEdge one) s.delay :=
    Finset.sum_le_sum fun d _ => hone d
  rw [pending]
  omega

/-- With all queues empty nothing is still to come. -/
theorem pending_eq_zero {M : Type*} [AddCommMonoid M] {s : State η S F D α} (hq : Quiescent s)
    (own : Chan S F D → ℕ) (edge : Method η S F D → ℕ) (value : Option α → M) :
    pending net own edge value s=0 := by
  have hfast : total (fastLoad net own edge value) s.fast=0 :=
    total_eq_zero _ _ fun f => by rw [fastLoad,hq.fast f]; rfl
  have hdelay : total (delayLoad net own edge value) s.delay=0 :=
    total_eq_zero _ _ fun d => by rw [delayLoad,hq.delay d]; rfl
  rw [pending,hfast,hdelay,hq.calls,callLoad,List.map_nil,List.sum_nil,add_zero,add_zero]

variable {net} [DecidableEq F] [DecidableEq D]

/-- Every schedule is paid for by its sends. -/
theorem work_le {start : ℤ} {acts : List (Act S F D α)} {s : State η S F D α}
    {ok : State η S F D α → Act S F D α → Prop}
    (h : Reaches (next net) ok (.start start) acts s) :
    acts.countP isWork ≤ workOf net s.sends := by
  obtain ⟨hsound,hconserved⟩ := conserved_of_run net workOwn workEdge one h
  have hrun := work_of_run h
  have hwaits := waits_le_pending net hsound
  unfold Conserved worth at hconserved
  unfold workDone at hrun
  unfold workOf
  omega

/-- A schedule which emptied all queues used up exactly what was paid. -/
theorem work_eq {start : ℤ} {acts : List (Act S F D α)} {s : State η S F D α}
    {ok : State η S F D α → Act S F D α → Prop}
    (h : Reaches (next net) ok (.start start) acts s) (hq : Quiescent s) :
    acts.countP isWork=workOf net s.sends := by
  obtain ⟨hsound,hconserved⟩ := conserved_of_run net workOwn workEdge one h
  have hrun := work_of_run h
  have hwaits := waits_le_pending net hsound
  have hpending := pending_eq_zero net hq workOwn workEdge (one (α := α))
  have hpops : pops s=0 := by
    rw [pops,hq.running]
    rfl
  unfold Conserved worth at hconserved
  unfold workDone at hrun
  unfold workOf
  omega

/-- Every run can be completed without further sends. -/
theorem completes {start : ℤ} {acts : List (Act S F D α)} {s : State η S F D α}
    (h : Reaches (next net) Unrestricted (.start start) acts s) :
    ∃ more s',Reaches (next net) Unrestricted (.start start) (acts++more) s' ∧ Quiescent s' ∧
      ∀ a∈more,sendOf a=none := by
  -- the sends pay for a fixed number of work steps; induction on what is left of it
  obtain ⟨left,hleft⟩ : ∃ left,workOf net s.sends=acts.countP isWork+left :=
    Nat.exists_eq_add_of_le (work_le h)
  induction left using Nat.strong_induction_on generalizing acts s with
  | h left ih =>
    by_cases hq : Quiescent s
    · refine ⟨[],s,?_,hq,fun a ha => False.elim (List.not_mem_nil ha)⟩
      rw [List.append_nil]
      exact h
    · obtain ⟨reading,a,s',ha,hnext⟩ := progress (conserved_of_run net workOwn workEdge one h).1 hq
      have htick := Reaches.step (.tick reading) h trivial rfl
      have hwork := Reaches.step a htick trivial hnext
      have hsends : s'.sends=s.sends :=
        sends_of_silent (s := {s with now := reading}) (sendOf_of_isWork ha) hnext
      have hcount : (acts++[Act.tick reading]++[a]).countP isWork=acts.countP isWork+1 := by
        rw [List.countP_append,List.countP_append,List.countP_singleton,List.countP_singleton,ha]
        rfl
      have hle := work_le hwork
      rw [hsends,hcount] at hle
      have hafter : workOf net s'.sends=
          (acts++[Act.tick reading]++[a]).countP isWork+(left-1) := by
        rw [hsends,hcount]
        omega
      obtain ⟨more,s'',hs'',hq'',hmore⟩ := ih (left-1) (by omega) hwork hafter
      refine ⟨.tick reading::a::more,s'',?_,hq'',?_⟩
      · rwa [List.append_assoc,List.append_assoc] at hs''
      · intro b hb
        rcases List.mem_cons.mp hb with rfl|hb
        · rfl
        · rcases List.mem_cons.mp hb with rfl|hb
          · exact sendOf_of_isWork ha
          · exact hmore b hb

variable [DecidableEq η] [DecidableEq S]

/-- One copy of each payload sent, for every route from its channel to the
handler. -/
noncomputable def expected (net : Network η S F D) (m : Method η S F D)
    (sends : List (Chan S F D×α)) : Multiset (Option α) :=
  (sends.map fun q =>
    Set.ncard {route | net.wiring.arrive q.1 route=some m} • ({some q.2} : Multiset (Option α))).sum

/-- With all queues empty every handler got one call for every send and route. -/
theorem delivered_eq {start : ℤ} {acts : List (Act S F D α)} {s : State η S F D α}
    {ok : State η S F D α → Act S F D α → Prop}
    (h : Reaches (next net) ok (.start start) acts s) (hq : Quiescent s)
    (m : Method η S F D) : delivered m s=expected net m (acts.filterMap sendOf) := by
  obtain ⟨-,hconserved⟩ := conserved_of_run net (fun _ => 0) (only m)
    (fun x => ({x} : Multiset (Option α))) h
  rw [Conserved,worth,pending_eq_zero net hq,add_zero,done_only] at hconserved
  have hsends : expected net m (s.sends.map fun p => (p.origin,p.payload))=
      expected net m (acts.filterMap sendOf) := by
    rw [sends_of_run h,expected,expected,((List.reverse_perm _).map _).sum_eq]
  rw [hconserved,←hsends,expected,sentWorth,List.map_map]
  refine congrArg List.sum (List.map_congr_left fun p _ => ?_)
  have hroutes : Set.ncard {route | net.wiring.arrive p.origin route=some m}=
      chanRate net (fun _ => 0) (only m) p.origin :=
    ncard_routes net.acyclic.wellFounded m p.origin
  change _=Set.ncard {route | net.wiring.arrive p.origin route=some m} • {some p.payload}
  rw [hroutes]

/-- In every run of every network: the work steps performed are at most those
the sends pay for; while some queue is not empty another step is possible once
the clock is late enough, so every run can be completed. By the time all queues
are empty every leaf handler was called once for every send and every route
from its channel to the handler, with the payload which was sent; so two
completed runs with the same sends agree, whatever their schedules were. -/
theorem delivery_schedule_independent (net : Network η S F D) {start : ℤ}
    {acts : List (Act S F D α)} {s : State η S F D α}
    (h : Reaches (next net) Unrestricted (.start start) acts s) :
    acts.countP isWork ≤ workOf net s.sends ∧
      (¬Quiescent s → ∃ reading a s',isWork a=true ∧
        next net {s with now := reading} a=some s') ∧
      (∃ more s',Reaches (next net) Unrestricted (.start start) (acts++more) s' ∧
        Quiescent s' ∧ ∀ a∈more,sendOf a=none) ∧
      (Quiescent s → acts.countP isWork=workOf net s.sends ∧
        ∀ m,target m=none → delivered m s=expected net m (acts.filterMap sendOf)) ∧
      ∀ start' acts' s',Reaches (next net) Unrestricted (.start start') acts' s' →
        Quiescent s → Quiescent s' → (acts.filterMap sendOf).Perm (acts'.filterMap sendOf) →
        ∀ m,target m=none → delivered m s=delivered m s' := by
  refine ⟨work_le h,?_,completes h,?_,?_⟩
  · exact progress (conserved_of_run net workOwn workEdge one h).1
  · exact fun hq => ⟨work_eq h hq,fun m _ => delivered_eq h hq m⟩
  · intro start' acts' s' h' hq hq' hperm m _
    rw [delivered_eq h hq,delivered_eq h' hq',expected,expected,(hperm.map _).sum_eq]

/-- One send to the `sync` of the small network, received completely; the
delayed channel gets the message of the direct bridge first. -/
def completeRun : List (Act (Fin 1) (Fin 1) (Fin 1) ℕ) :=
  let std := insertionSort (Cell (Fin 1) (Fin 1) (Fin 1) ℕ)
  [.sendSync 0 42,.call std,.call std,.call std,.semWait 0,.tick 103,.getFast 0 0,.call std,
    .tick 112,.handOver 0,.call std,.call std,.popBack,.tick 130,.semWait 0,.handOver 0,
    .call std,.call std,.popBack]

/-- What can be seen of a state of the small network: its queues are empty, and
the calls of the first handler behind the delayed channel. -/
def relaySeen (s : State ℕ (Fin 1) (Fin 1) (Fin 1) ℕ) : Bool×List (Option ℕ) :=
  ((s.fast 0).queue.isEmpty && (s.delay 0).queue.isEmpty && s.calls.isEmpty &&
    s.running.isNone,
    (s.made.filter fun e => e.method=Method.functor 7).map fun e => payload e.data)

/-- Two routes lead to that handler, and it is called twice with the payload. -/
theorem delivery_schedule_independent_relay :
    ∃ s,Reaches (next relay) Unrestricted (.start 100) completeRun s ∧ Quiescent s ∧
      delivered (.functor 7) s={some 42,some 42} ∧
      delivered (.functor 7) s=expected relay (.functor 7) [(.sync 0,42)] := by
  obtain ⟨s,hs,hseen⟩ := reaches_of_replay (next relay) Unrestricted (.start 100) completeRun
    relaySeen (true,[some 42,some 42]) (by decide)
  rw [relaySeen,Prod.mk.injEq] at hseen
  simp only [Bool.and_eq_true,List.isEmpty_iff,Option.isNone_iff_eq_none] at hseen
  obtain ⟨⟨⟨⟨hfast,hdelay⟩,hcalls⟩,hrun⟩,hmade⟩ := hseen
  have hq : Quiescent s := by
    refine ⟨fun f => ?_,fun d => ?_,hcalls,hrun⟩
    · rw [Subsingleton.elim f 0]
      exact hfast
    · rw [Subsingleton.elim d 0]
      exact hdelay
  obtain ⟨-,-,-,hdone,-⟩ := delivery_schedule_independent relay hs
  refine ⟨s,hs,hq,?_,(hdone hq).2 (.functor 7) rfl⟩
  rw [delivered,hmade]
  rfl

end Delivery

end FastEventSystem.NetworkDelivery
