import FastEventSystem.NetworkSound
import FastEventSystem.PartyTotals
import Mathlib.Algebra.Order.Group.Multiset
import Mathlib.Data.Finite.Sum
import Mathlib.Tactic.Abel

/-!
# What a network delivers, whatever the schedule

Weights on channels and subscribers and a value of payloads make every queued
tuple and every call to be made worth what it will still cause. Sending adds the
worth of one payload at its channel; every other step only turns worth to come
into worth done. With the weight of one handler this counts its calls, and with
the weight of the work steps it bounds the run. Neither depends on the schedule.
-/

namespace FastEventSystem.NetworkFlow

open AcyclicFlow MessageOrder DelayChannel FastChannel SyncRegistry ChannelNetwork NetworkSound
  PartyTotals GuardedRuns

variable {η S F D α M : Type*}

instance [Finite S] [Finite F] [Finite D] : Finite (Chan S F D) := by
  refine Finite.of_injective (β := S⊕F⊕D) (fun c => match c with
    | .sync s => .inl s
    | .fast f => .inr (.inl f)
    | .delay d => .inr (.inr d)) fun a b h => ?_
  cases a <;> cases b <;> simp_all

section Worth

variable [Finite S] [Finite F] [Finite D] (net : Network η S F D) (own : Chan S F D → ℕ)
  (edge : Method η S F D → ℕ)

/-- What one payload in a channel amounts to. -/
noncomputable def chanRate : Chan S F D → ℕ := tally net.acyclic.wellFounded own edge

/-- What one call of a subscriber amounts to. -/
noncomputable def callRate : Method η S F D → ℕ := edgeTally net.acyclic.wellFounded own edge

/-- A channel amounts to its own weight and its subscribers. -/
theorem chanRate_eq (c : Chan S F D) :
    chanRate net own edge c=own c+((net.registered c).map (callRate net own edge)).sum :=
  tally_eq net.acyclic.wellFounded own edge c

variable [AddCommMonoid M] (value : Option α → M)

/-- Worth of the tuples in an undelayed queue. -/
noncomputable def fastLoad (f : F) (c : AsyncFast (Cell S F D α)) : M :=
  (c.queue.map fun t => chanRate net own edge (.fast f) • value (payload t.data)).sum

/-- Worth of the entries in a delayed queue; emptied ones have none. -/
noncomputable def delayLoad (d : D) (c : AsyncDelay (Cell S F D α)) : M :=
  (c.queue.map fun m => m.data.elim 0 fun data =>
    chanRate net own edge (.delay d) • value (payload data)).sum

/-- Worth of the calls to be made. -/
noncomputable def callLoad (calls : List (Call η S F D α)) : M :=
  (calls.map fun t => callRate net own edge t.method • value (payload t.data)).sum

/-- Worth of the dispatches and calls which were made. -/
def done (own : Chan S F D → ℕ) (edge : Method η S F D → ℕ) (value : Option α → M)
    (s : State η S F D α) : M :=
  (s.dispatched.map fun e => own e.1 • value (payload e.2)).sum+
    (s.made.map fun t => edge t.method • value (payload t.data)).sum

/-- Worth of what was sent. -/
noncomputable def sentWorth (sends : List (Parcel S F D α)) : M :=
  (sends.map fun p => chanRate net own edge p.origin • value (some p.payload)).sum

/-- The calls of a dispatch amount to what the subscribers do. -/
theorem callLoad_operatorCall (ms : List (Method η S F D)) (data : Cell S F D α) :
    callLoad net own edge value (operatorCall 0 ms data)=
      (ms.map (callRate net own edge)).sum • value (payload data) := by
  have hgeneral : ∀ i,callLoad net own edge value (operatorCall i ms data)=
      (ms.map (callRate net own edge)).sum • value (payload data) := by
    induction ms with
    | nil => exact fun _ => (zero_nsmul _).symm
    | cons m ms ih =>
      intro i
      have htail := ih (i+1)
      rw [operatorCall_eq] at htail ⊢
      rw [List.zipIdx_cons,List.map_cons,callLoad,List.map_cons,List.sum_cons,payload_extend]
      rw [callLoad] at htail
      rw [htail,List.map_cons,List.sum_cons,add_nsmul]
  exact hgeneral 0

end Worth

section Balance

variable [Finite S] [Fintype F] [Fintype D] (net : Network η S F D) (own : Chan S F D → ℕ)
  (edge : Method η S F D → ℕ) [AddCommMonoid M] (value : Option α → M)

/-- Worth still to come: everything queued and every call to be made. -/
noncomputable def pending (s : State η S F D α) : M :=
  total (fastLoad net own edge value) s.fast+total (delayLoad net own edge value) s.delay+
    callLoad net own edge value s.calls

/-- Worth done and to come. -/
noncomputable def worth (s : State η S F D α) : M :=
  done own edge value s+pending net own edge value s

/-- A dispatch adds what its channel amounts to. -/
theorem worth_dispatch (s : State η S F D α) (c : Chan S F D) (data : Cell S F D α) :
    worth net own edge value (s.dispatch net c data)=
      worth net own edge value s+chanRate net own edge c • value (payload data) := by
  have hcalls : callLoad net own edge value (operatorCall 0 (net.registered c) data++s.calls)=
      ((net.registered c).map (callRate net own edge)).sum • value (payload data)+
        callLoad net own edge value s.calls := by
    rw [←callLoad_operatorCall,callLoad,callLoad,callLoad,List.map_append,List.sum_append]
  have hdone : done own edge value (s.dispatch net c data)=
      own c • value (payload data)+done own edge value s := by
    rw [done,done]
    change ((c,data)::s.dispatched |>.map _).sum+(s.made.map _).sum=_
    rw [List.map_cons,List.sum_cons,add_assoc]
  have hpending : pending net own edge value (s.dispatch net c data)=
      pending net own edge value s+
        ((net.registered c).map (callRate net own edge)).sum • value (payload data) := by
    change total (fastLoad net own edge value) s.fast+
      total (delayLoad net own edge value) s.delay+
      callLoad net own edge value (operatorCall 0 (net.registered c) data++s.calls)=_
    rw [hcalls,pending]
    abel
  rw [worth,worth,hdone,hpending,chanRate_eq,add_nsmul]
  abel

end Balance

section Steps

variable [Finite S] [Fintype F] [Fintype D] (net : Network η S F D) (own : Chan S F D → ℕ)
  (edge : Method η S F D → ℕ) [AddCancelCommMonoid M] (value : Option α → M)

/-- A send to an undelayed channel adds what the channel amounts to. -/
theorem worth_sendFast [DecidableEq F] (s : State η S F D α) (f : F) (data : Cell S F D α) :
    worth net own edge value (s.sendFast f data)=
      worth net own edge value s+chanRate net own edge (.fast f) • value (payload data) := by
  have hgain : fastLoad net own edge value f
      (((s.fast f).enqueue ⟨s.sends.length,data⟩).notify)=
      fastLoad net own edge value f (s.fast f)+
        chanRate net own edge (.fast f) • value (payload data) := by
    rw [fastLoad,fastLoad]
    change (((s.fast f).queue++[_]).map _).sum=_
    rw [List.map_append,List.sum_append,List.map_singleton,List.sum_singleton]
  have htotal := total_gain (fastLoad net own edge value) s.fast f hgain
  change done own edge value s+(total (fastLoad net own edge value) (Function.update s.fast f _)+
    total (delayLoad net own edge value) s.delay+callLoad net own edge value s.calls)=_
  rw [htotal,worth,pending]
  abel

/-- A send to a delayed channel adds what the channel amounts to. -/
theorem worth_sendDelay [DecidableEq D] (s : State η S F D α) (d : D)
    (priority delayPoint : ℤ) (data : Cell S F D α) (std : StdSort (Cell S F D α)) :
    worth net own edge value (s.sendDelay d priority delayPoint data std)=
      worth net own edge value s+chanRate net own edge (.delay d) • value (payload data) := by
  have hgain : delayLoad net own edge value d
      ((s.delay d).operatorCall priority delayPoint data std)=
      delayLoad net own edge value d (s.delay d)+
        chanRate net own edge (.delay d) • value (payload data) := by
    have hperm := operatorCall_perm (s.delay d) priority delayPoint data std
    rw [delayLoad,delayLoad,(hperm.map _).sum_eq,List.map_cons,List.sum_cons,add_comm]
    rfl
  have htotal := total_gain (delayLoad net own edge value) s.delay d hgain
  change done own edge value s+(total (fastLoad net own edge value) s.fast+
    total (delayLoad net own edge value) (Function.update s.delay d _)+
    callLoad net own edge value s.calls)=_
  rw [htotal,worth,pending]
  abel

/-- Taking a tuple out of an undelayed queue takes its worth. -/
theorem worth_takeFast [DecidableEq F] {s : State η S F D α} {f : F}
    {t : Tuple (Cell S F D α)} {c : AsyncFast (Cell S F D α)}
    (hperm : (s.fast f).queue.Perm (t::c.queue)) :
    worth net own edge value {s with fast := Function.update s.fast f c}+
      chanRate net own edge (.fast f) • value (payload t.data)=worth net own edge value s := by
  have hloss : fastLoad net own edge value f (s.fast f)=fastLoad net own edge value f c+
      chanRate net own edge (.fast f) • value (payload t.data) := by
    rw [fastLoad,fastLoad,(hperm.map _).sum_eq,List.map_cons,List.sum_cons,add_comm]
  have htotal := total_loss (fastLoad net own edge value) s.fast f hloss
  rw [worth,worth,pending,pending,←htotal]
  change done own edge value s+(total (fastLoad net own edge value) (Function.update s.fast f c)+
    total (delayLoad net own edge value) s.delay+callLoad net own edge value s.calls)+_=_
  abel

/-- Changing a delayed queue takes the worth it loses. -/
theorem worth_takeDelay [DecidableEq D] {s : State η S F D α} {d : D}
    {c : AsyncDelay (Cell S F D α)} {loss : M}
    (hloss : delayLoad net own edge value d (s.delay d)=delayLoad net own edge value d c+loss)
    (waiting : D → ℕ) (running : Option D) :
    worth net own edge value {s with
      delay := Function.update s.delay d c
      waiting := waiting
      running := running}+loss=worth net own edge value s := by
  have htotal := total_loss (delayLoad net own edge value) s.delay d hloss
  rw [worth,worth,pending,pending,←htotal]
  change done own edge value s+(total (fastLoad net own edge value) s.fast+
    total (delayLoad net own edge value) (Function.update s.delay d c)+
    callLoad net own edge value s.calls)+_=_
  abel

/-- Making a call turns what it amounts to into worth done and worth behind the
bridge. -/
theorem worth_invoke [DecidableEq F] [DecidableEq D] (s : State η S F D α)
    (t : Call η S F D α) (std : StdSort (Cell S F D α)) :
    worth net own edge value (s.invoke net t std)=
      worth net own edge value s+callRate net own edge t.method • value (payload t.data) := by
  have hmade : worth net own edge value {s with made := ⟨t.method,t.data,s.now⟩::s.made}=
      worth net own edge value s+edge t.method • value (payload t.data) := by
    rw [worth,worth,done,done]
    change _+((⟨t.method,t.data,s.now⟩::s.made).map _).sum+pending net own edge value s=_
    rw [List.map_cons,List.sum_cons]
    abel
  obtain ⟨m,data⟩ := t
  cases m with
  | functor f => exact hmade
  | bind obj ptrFunc => exact hmade
  | sync callback =>
    refine (worth_dispatch net own edge value _ _ _).trans ?_
    rw [hmade,add_assoc,←add_nsmul]
    rfl
  | fast queue =>
    refine (worth_sendFast net own edge value _ _ _).trans ?_
    rw [hmade,add_assoc,←add_nsmul]
    rfl
  | delay priority delay queue =>
    refine (worth_sendDelay net own edge value _ _ _ _ _ _).trans ?_
    rw [hmade,add_assoc,←add_nsmul]
    rfl

/-- Making the next call changes no worth. -/
theorem worth_call [DecidableEq F] [DecidableEq D] {s : State η S F D α}
    {t : Call η S F D α} {rest : List (Call η S F D α)} (hcalls : s.calls=t::rest)
    (std : StdSort (Cell S F D α)) :
    worth net own edge value ({s with calls := rest}.invoke net t std)=
      worth net own edge value s := by
  rw [worth_invoke,worth,worth,pending,pending,hcalls]
  change done own edge value s+(_+_+callLoad net own edge value rest)+_=_
  rw [callLoad,callLoad,List.map_cons,List.sum_cons]
  abel

/-- Worth done and to come is the worth of what was sent. -/
def Conserved (s : State η S F D α) : Prop :=
  worth net own edge value s=sentWorth net own edge value s.sends

/-- Noting a send adds the worth of one payload at its channel. -/
theorem sentWorth_cons (p : Parcel S F D α) (sends : List (Parcel S F D α)) :
    sentWorth net own edge value (p::sends)=sentWorth net own edge value sends+
      chanRate net own edge p.origin • value (some p.payload) := by
  rw [sentWorth,sentWorth,List.map_cons,List.sum_cons,add_comm]

/-- An intact back entry loses its worth when it is moved out. -/
theorem delayLoad_moveBack {d : D} {c c' : AsyncDelay (Cell S F D α)}
    {t : Message (Cell S F D α)} (ht : t.Intact) (hm : c.moveBack=some (t,c')) :
    delayLoad net own edge value d c=delayLoad net own edge value d c'+
      chanRate net own edge (.delay d) • value (payload t.data.join) := by
  obtain ⟨rest,hq,hq',-⟩ := moveBack_eq_some hm
  obtain ⟨data,hdata⟩ := Option.isSome_iff_exists.mp ht
  rw [delayLoad,delayLoad,hq,hq',List.map_cons,List.map_cons,List.sum_cons,List.sum_cons,hdata]
  change _+_=0+_+_
  rw [zero_add,add_comm]
  rfl

/-- An emptied entry has no worth to lose. -/
theorem delayLoad_popBack {d : D} {c c' : AsyncDelay (Cell S F D α)}
    {b : Message (Cell S F D α)} (hb : b.data=none) (hp : c.popBack=some (b,c')) :
    delayLoad net own edge value d c=delayLoad net own edge value d c'+0 := by
  obtain ⟨hq,-⟩ := popBack_eq_some hp
  rw [delayLoad,delayLoad,hq,List.map_cons,List.sum_cons,hb,add_zero]
  exact zero_add _

variable [DecidableEq F] [DecidableEq D]

/-- Every step keeps the balance. -/
theorem conserved_step {s s' : State η S F D α} {a : Act S F D α} (hsound : Sound net s)
    (hb : Conserved net own edge value s) (h : next net s a=some s') :
    Conserved net own edge value s' := by
  unfold Conserved at hb ⊢
  have hnote : ∀ p : Parcel S F D α,worth net own edge value (s.note p)+
      chanRate net own edge p.origin • value (some p.payload)=
      sentWorth net own edge value (p::s.sends) := by
    intro p
    rw [sentWorth_cons,←hb]
    rfl
  cases next_effect h with
  | tick reading => exact hb
  | sendSync c x hcalls hrun =>
    rw [worth_dispatch]
    exact hnote ⟨x,.sync c,s.now,[]⟩
  | sendFast f x hcalls hrun =>
    rw [worth_sendFast]
    exact hnote ⟨x,.fast f,s.now,[]⟩
  | sendDelay d priority delayPoint x std hcalls hrun =>
    rw [worth_sendDelay]
    exact hnote ⟨x,.delay d,delayPoint,[]⟩
  | getFast f position t c c' hcalls hrun hw hd =>
    obtain ⟨hqueue,-⟩ := FastChannel.semWait_eq_some hw
    obtain ⟨hperm,-⟩ := waitDequeue_eq_some hd
    rw [hqueue] at hperm
    rw [worth_dispatch,worth_takeFast net own edge value hperm]
    exact hb
  | semWait d c hcalls hrun hw =>
    obtain ⟨hqueue,-⟩ := DelayChannel.semWait_eq_some hw
    have hloss : delayLoad net own edge value d (s.delay d)=
        delayLoad net own edge value d c+0 := by
      rw [delayLoad,delayLoad,hqueue,add_zero]
    have htake := worth_takeDelay net own edge value hloss
      (Function.update s.waiting d (s.waiting d+1)) s.running
    rw [add_zero] at htake
    exact htake.trans hb
  | handOver d t c hcalls hrun hwait hm hdue =>
    have hintact : t.Intact := by
      obtain ⟨rest,hq,-⟩ := moveBack_eq_some hm
      refine hsound.resting d ?_ t (hq ▸ List.mem_cons_self)
      rw [hrun]
      exact fun heq => nomatch heq
    rw [worth_dispatch,worth_takeDelay net own edge value
      (delayLoad_moveBack net own edge value hintact hm)]
    exact hb
  | call std t rest hcalls =>
    rw [worth_call net own edge value hcalls]
    refine hb.trans ?_
    obtain ⟨m,data⟩ := t
    cases m <;> rfl
  | popBack d b c hcalls hrun hp =>
    have hempty := (hsound.popBack hrun hp).1
    have htake := worth_takeDelay net own edge value
      (delayLoad_popBack net own edge value hempty hp) s.waiting none
    rw [add_zero] at htake
    exact htake.trans hb

/-- Every run keeps the balance. -/
theorem conserved_of_run {start : ℤ} {acts : List (Act S F D α)} {s : State η S F D α}
    {ok : State η S F D α → Act S F D α → Prop}
    (h : Reaches (next net) ok (.start start) acts s) :
    Sound net s ∧ Conserved net own edge value s := by
  refine h.invariant (I := fun s => Sound net s ∧ Conserved net own edge value s) ?_ ?_
  · refine ⟨sound_start net start,?_⟩
    have hfast : total (fastLoad net own edge value) (fun _ => AsyncFast.fresh)=0 :=
      total_eq_zero _ _ fun _ => rfl
    have hdelay : total (delayLoad net own edge value) (fun _ => AsyncDelay.fresh)=0 :=
      total_eq_zero _ _ fun _ => rfl
    rw [Conserved,worth,pending,State.start,hfast,hdelay]
    simp only [done,callLoad,sentWorth,List.map_nil,List.sum_nil,add_zero]
  · intro s a s' hi _ hn
    exact ⟨sound_step hi.1 hn,conserved_step net own edge value hi.1 hi.2 hn⟩

end Steps

end FastEventSystem.NetworkFlow
