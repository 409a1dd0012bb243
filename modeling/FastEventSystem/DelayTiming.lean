import FastEventSystem.DelayDelivery

/-!
# One call of `update` or `wait` against the clock

A single caller uses the channel and nobody sends while it is inside. Each
call is the function of the source with the readings of the clock as a list,
one element for each time the source reads it; a list which ends early shows
the call where it stands. Every such call is also a run of the caller's own
steps in the machine of interleaved calls. Emptiness is decided by the count,
and whether the back entry is due only inside the loop of `_get`, which is
left by dispatching alone. Times are exact integers, so `clock + timeout` does
not overflow.
-/

namespace FastEventSystem.DelayTiming

open MessageOrder CountingSemaphore DelayChannel DelayCalls GuardedRuns

/-- What a call did with the readings it was given. -/
inductive Outcome (α : Type*) where
  /-- It returned, possibly after dispatching a message at a reading, and left
  readings unread. -/
  | returned (dispatched : Option (Message α×ℤ)) (unread : List ℤ) (chan : AsyncDelay α)
  /-- All readings are used and the call has not returned. -/
  | inside (chan : AsyncDelay α)
  /-- It used the back of an empty vector. -/
  | undefined

variable {ι α : Type*}

/-- `_get` past `_sem.wait()`: the loop on the clock, the hand-over and the pop. -/
def receive (c : AsyncDelay α) : List ℤ → Outcome α
  | [] => .inside c
  | reading::unread =>
    match c.moveBack with
    | none => .undefined
    | some (t,moved) =>
      if reading < t.timestamp then receive c unread
      else
        match moved.popBack with
        | none => .undefined
        | some (_,popped) => .returned (some (t,reading)) unread popped

/-- `get()`. -/
def get (c : AsyncDelay α) (clock : List ℤ) : Outcome α :=
  match c.semWait with
  | none => .inside c
  | some passed => receive passed clock

/-- `update()`. -/
def update (c : AsyncDelay α) (clock : List ℤ) : Outcome α :=
  if c.empty=true then .returned none clock c else get c clock

/-- The timed loop of `wait`. -/
def poll (mark : ℤ) (c : AsyncDelay α) : List ℤ → Outcome α
  | [] => .inside c
  | reading::unread =>
    if reading ≤ mark then
      if c.empty=true then poll mark c unread else get c unread
    else .returned none unread c

/-- `wait(timeout)` entered at a reading. -/
def wait (timeout entry : ℤ) (c : AsyncDelay α) (clock : List ℤ) : Outcome α :=
  if timeout > 0 then poll (entry+timeout) c clock else get c (entry::clock)

/-- `update()` respects time: it dispatches the head only if that is due at the
first reading, and otherwise returns with the channel as it was. -/
def UpdateTimely (c : AsyncDelay α) (clock : List ℤ) : Prop :=
  match update c clock with
  | .returned none _ chan => chan=c
  | .returned (some (t,_)) _ _ =>
    c.queue.head?=some t ∧ ∀ first∈clock.head?,t.timestamp ≤ first
  | .inside _ => clock=[]
  | .undefined => False

/-- `wait(timeout)` respects time: it dispatches the head only if that is due
by the mark, and otherwise returns at the first reading past the mark with the
channel as it was. -/
def WaitTimely (timeout entry : ℤ) (c : AsyncDelay α) (clock : List ℤ) : Prop :=
  match wait timeout entry c clock with
  | .returned none unread chan => chan=c ∧ ∃ before reading,clock=before++reading::unread ∧
      (∀ r∈before,r ≤ entry+timeout) ∧ entry+timeout < reading
  | .returned (some (t,_)) _ _ => c.queue.head?=some t ∧ t.timestamp ≤ entry+timeout
  | .inside _ => ∀ r∈clock,r ≤ entry+timeout
  | .undefined => False

section Functions

/-- The loop of `_get` with a back entry: while the readings are earlier than
the entry the call stays inside, and the first other reading dispatches it. -/
theorem receive_cases {c : AsyncDelay α} {t : Message α} {rest : List (Message α)}
    (hq : c.queue=t::rest) (clock : List ℤ) :
    ((∀ r∈clock,r < t.timestamp) ∧ receive c clock=.inside c) ∨
    ∃ before reading unread,clock=before++reading::unread ∧ (∀ r∈before,r < t.timestamp) ∧
      t.timestamp ≤ reading ∧
      receive c clock=.returned (some (t,reading)) unread {c with queue := rest} := by
  have hmove : c.moveBack=some (t,{c with queue := t.movedFrom::rest}) := by
    simp only [AsyncDelay.moveBack,hq]
  induction clock with
  | nil => exact .inl ⟨fun _ h => False.elim (List.not_mem_nil h),rfl⟩
  | cons reading unread ih =>
    rw [receive,hmove]
    dsimp only
    split
    · rename_i hlt
      rcases ih with ⟨hall,heq⟩|⟨before,r,left,hclock,hbefore,hdue,heq⟩
      · exact .inl ⟨List.forall_mem_cons.mpr ⟨hlt,hall⟩,heq⟩
      · exact .inr ⟨reading::before,r,left,by rw [hclock,List.cons_append],
          List.forall_mem_cons.mpr ⟨hlt,hbefore⟩,hdue,heq⟩
    · rename_i hdue
      exact .inr ⟨[],reading,unread,rfl,fun _ h => False.elim (List.not_mem_nil h),by omega,rfl⟩

/-- With a positive count `get()` is the loop on the lowered count. -/
theorem get_of_nonempty {c : AsyncDelay α} (h : c.empty=false) (clock : List ℤ) :
    get c clock=receive ⟨c.queue,⟨c.sem.len-1⟩⟩ clock := by
  have hpos : c.sem.len > 0 := by
    have hlt := of_decide_eq_false h
    simp only [Semaphore.size] at hlt
    omega
  simp only [get,AsyncDelay.semWait,Semaphore.wait,if_pos hpos,Option.map_some]

/-- `update()` with a positive count respects time exactly when the head is due
at the first reading. -/
theorem updateTimely_iff {c : AsyncDelay α} {t : Message α} {rest : List (Message α)}
    (hq : c.queue=t::rest) (hc : c.empty=false) (clock : List ℤ) :
    UpdateTimely c clock ↔ ∀ first∈clock.head?,t.timestamp ≤ first := by
  have hupdate : update c clock=receive ⟨c.queue,⟨c.sem.len-1⟩⟩ clock := by
    rw [update,if_neg (by rw [hc]; exact Bool.false_ne_true),get_of_nonempty hc]
  have hpassed : (⟨c.queue,⟨c.sem.len-1⟩⟩ : AsyncDelay α).queue=t::rest := hq
  rw [UpdateTimely,hupdate]
  rcases receive_cases hpassed clock with
    ⟨hall,heq⟩|⟨before,reading,unread,hclock,hbefore,hdue,heq⟩
  · rw [heq]
    dsimp only
    cases clock with
    | nil => simp only [List.head?_nil,Option.not_mem_none,false_implies,implies_true]
    | cons first clock =>
      have hfirst := hall first List.mem_cons_self
      simp only [reduceCtorEq,List.head?_cons,Option.mem_some_iff,forall_eq',false_iff]
      omega
  · rw [heq,hq]
    simp only [List.head?_cons,true_and]

/-- The timed loop on an empty channel returns at the first reading past the
mark and nothing else. -/
theorem poll_of_empty {c : AsyncDelay α} (hc : c.empty=true) (mark : ℤ) (clock : List ℤ) :
    ((∀ r∈clock,r ≤ mark) ∧ poll mark c clock=.inside c) ∨
    ∃ before reading unread,clock=before++reading::unread ∧ (∀ r∈before,r ≤ mark) ∧
      mark < reading ∧ poll mark c clock=.returned none unread c := by
  induction clock with
  | nil => exact .inl ⟨fun _ h => False.elim (List.not_mem_nil h),rfl⟩
  | cons reading unread ih =>
    rw [poll]
    by_cases hle : reading ≤ mark
    · rw [if_pos hle,if_pos hc]
      rcases ih with ⟨hall,heq⟩|⟨before,r,left,hclock,hbefore,hpast,heq⟩
      · exact .inl ⟨List.forall_mem_cons.mpr ⟨hle,hall⟩,heq⟩
      · exact .inr ⟨reading::before,r,left,by rw [hclock,List.cons_append],
          List.forall_mem_cons.mpr ⟨hle,hbefore⟩,hpast,heq⟩
    · rw [if_neg hle]
      exact .inr ⟨[],reading,unread,rfl,fun _ h => False.elim (List.not_mem_nil h),by omega,rfl⟩

/-- A timed `wait` on an empty channel respects time. -/
theorem waitTimely_of_empty {c : AsyncDelay α} (hc : c.empty=true) {timeout : ℤ}
    (htimeout : timeout > 0) (entry : ℤ) (clock : List ℤ) : WaitTimely timeout entry c clock := by
  rw [WaitTimely,wait,if_pos htimeout]
  rcases poll_of_empty hc (entry+timeout) clock with
    ⟨hall,heq⟩|⟨before,reading,unread,hclock,hbefore,hpast,heq⟩
  · rw [heq]
    exact hall
  · rw [heq]
    exact ⟨rfl,before,reading,hclock,hbefore,hpast⟩

/-- A timed `wait` with a positive count respects time exactly when the head is
due by the mark, the first turn of its loop is past the mark, or no reading is. -/
theorem waitTimely_iff {c : AsyncDelay α} {t : Message α} {rest : List (Message α)}
    (hq : c.queue=t::rest) (hc : c.empty=false) {timeout : ℤ} (htimeout : timeout > 0) (entry : ℤ)
    (clock : List ℤ) :
    WaitTimely timeout entry c clock ↔ t.timestamp ≤ entry+timeout ∨
      (∀ first∈clock.head?,entry+timeout < first) ∨ ∀ r∈clock,r ≤ entry+timeout := by
  rw [WaitTimely,wait,if_pos htimeout]
  cases clock with
  | nil =>
    simp only [poll,List.not_mem_nil,false_implies,implies_true,List.head?_nil,
      Option.not_mem_none,or_true]
  | cons first clock =>
    rw [poll]
    by_cases hle : first ≤ entry+timeout
    · have hpassed : (⟨c.queue,⟨c.sem.len-1⟩⟩ : AsyncDelay α).queue=t::rest := hq
      rw [if_pos hle,if_neg (by rw [hc]; exact Bool.false_ne_true),get_of_nonempty hc]
      have hnot : ¬∀ r∈(first::clock).head?,entry+timeout < r := by
        simp only [List.head?_cons,Option.mem_some_iff,forall_eq']
        omega
      rw [or_iff_right hnot]
      rcases receive_cases hpassed clock with
        ⟨hall,heq⟩|⟨before,reading,unread,hclock,hbefore,hdue,heq⟩
      · rw [heq]
        dsimp only
        refine ⟨.inr,fun h => ?_⟩
        rcases h with hmark|hmark
        · refine List.forall_mem_cons.mpr ⟨hle,fun r hr => ?_⟩
          have hlt := hall r hr
          omega
        · exact hmark
      · rw [heq,hq]
        simp only [List.head?_cons,true_and]
        refine ⟨.inl,fun h => ?_⟩
        rcases h with hmark|hmark
        · exact hmark
        · have hreading := hmark reading (by
            rw [hclock]
            exact List.mem_cons_of_mem _ (List.mem_append_right _ List.mem_cons_self))
          omega
    · rw [if_neg hle]
      refine iff_of_true ⟨rfl,[],first,rfl,fun _ h => False.elim (List.not_mem_nil h),by omega⟩
        (.inr (.inl ?_))
      simp only [List.head?_cons,Option.mem_some_iff,forall_eq']
      omega

end Functions

section Machine

/-- Steps of one caller. -/
def Own (i : ι) (_ : State ι α) : Act ι α → Prop
  | .operatorCall .. => False
  | .get j | .update j | .wait j .. | .poll j _ | .semWait j | .readClock j _ | .handlerReturns j
  | .popBack j | .handlerThrows j => j=i

/-- The reading of the clock made by a turn of one of the two loops. -/
def turn : Act ι α → Option ℤ
  | .poll _ reading => some reading
  | .readClock _ reading => some reading
  | _ => none

/-- The readings a call left unread. -/
def Outcome.unread : Outcome α → List ℤ
  | .returned _ unread _ => unread
  | _ => []

/-- A caller which started in the first state stands in the second as the
outcome says. -/
def Shown (i : ι) (s u : State ι α) : Outcome α → Prop
  | .returned none _ chan => u.chan=chan ∧ u.frame i=.idle ∧ u.handed=s.handed
  | .returned (some (t,reading)) _ chan => u.chan=chan ∧ u.frame i=.idle ∧
      ∃ pending,u.handed=⟨t,reading,pending⟩::s.handed
  | .inside chan => u.chan=chan ∧ u.frame i≠.idle ∧ u.handed=s.handed
  | .undefined => False

/-- Of the first state only the history matters. -/
theorem Shown.of_handed {i : ι} {s s' u : State ι α} {o : Outcome α} (h : Shown i s u o)
    (hs : s.handed=s'.handed) : Shown i s' u o := by
  unfold Shown at h ⊢
  rw [←hs]
  exact h

variable [DecidableEq ι] {subscribers : ℕ} {start : State ι α} {done : List (Act ι α)}

/-- The subscribers return one after the other. -/
theorem reaches_handlersReturn {s : State ι α} {i : ι} {t : Message α} {k n : ℕ} {rest : List ι}
    (h : Reaches (next subscribers) (Own i) start done s) (hf : s.frame i=.dispatching t k)
    (hr : s.running=i::rest) (hn : k+n=subscribers) :
    Reaches (next subscribers) (Own i) start (done++List.replicate n (.handlerReturns i))
      (s.goto i (.dispatching t subscribers)) := by
  induction n generalizing done s k with
  | zero =>
    rw [List.replicate_zero,List.append_nil]
    have hsame : s.goto i (.dispatching t subscribers)=s := by
      rw [State.goto,←hn,Nat.add_zero,←hf,Function.update_eq_self]
    rwa [hsame]
  | succ n ih =>
    have hstep : next subscribers s (.handlerReturns i)=
        some (s.goto i (.dispatching t (k+1))) := by
      have hk : k < subscribers := by omega
      simp only [next,hf,hr,hk,and_self,if_true]
    have hown : Own i s (.handlerReturns i) := rfl
    have hgo := ih (h.step _ hown hstep) (Function.update_self _ _ _) hr (by omega)
    rw [List.append_assoc,List.singleton_append,←List.replicate_succ] at hgo
    simp only [State.goto,Function.update_idem] at hgo
    exact hgo

/-- The steps of a call from a reading at which the back entry is due. -/
def delivery (i : ι) (subscribers : ℕ) (reading : ℤ) : List (Act ι α) :=
  .readClock i reading::(List.replicate subscribers (.handlerReturns i)++[.popBack i])

/-- A due back entry is handed over, its subscribers return, and it is popped. -/
theorem reaches_delivery {s : State ι α} {i : ι} {t : Message α} {rest : List (Message α)}
    {reading : ℤ} (h : Reaches (next subscribers) (Own i) start done s)
    (hf : s.frame i=.waiting) (hq : s.chan.queue=t::rest) (hdue : t.timestamp ≤ reading) :
    ∃ u,Reaches (next subscribers) (Own i) start (done++delivery i subscribers reading) u ∧
      u.chan={s.chan with queue := rest} ∧ u.frame i=.idle ∧
      u.handed=⟨t,reading,rest⟩::s.handed := by
  have hown : Own i s (.readClock i reading) := rfl
  have hhanded := h.step _ hown (next_readClock_due subscribers hf hq hdue)
  have hreturned := reaches_handlersReturn hhanded (Function.update_self _ _ _) rfl
    (Nat.zero_add subscribers)
  rw [List.append_assoc,List.singleton_append] at hreturned
  generalize hv : State.goto _ i (.dispatching t subscribers)=v at hreturned
  have hframe : v.frame i=.dispatching t subscribers := by
    rw [←hv]
    exact Function.update_self _ _ _
  have hrun : v.running=i::s.running := by rw [←hv]; rfl
  have hqueue : v.chan={s.chan with queue := t.movedFrom::rest} := by rw [←hv]; rfl
  have hhist : v.handed=⟨t,reading,rest⟩::s.handed := by rw [←hv]; rfl
  have hpop : next subscribers v (.popBack i)=some {v.goto i .idle with
      chan := {s.chan with queue := rest}
      running := s.running
      removed := (t,t.movedFrom)::v.removed} := by
    simp only [next,hframe,hrun,hqueue,AsyncDelay.popBack,and_self,if_true,Option.map_some]
  have hpops : Own i v (.popBack i) := rfl
  have hpopped := hreturned.step _ hpops hpop
  rw [List.append_assoc,List.cons_append] at hpopped
  exact ⟨_,hpopped,rfl,Function.update_self _ _ _,hhist⟩

omit [DecidableEq ι] in
/-- The turns of a loop are the readings it made. -/
theorem filterMap_turn {step : ℤ → Act ι α} (hstep : ∀ r,turn (step r)=some r)
    (readings : List ℤ) : (readings.map step).filterMap turn=readings := by
  rw [List.filterMap_map]
  simp only [Function.comp_def,hstep]
  exact List.filterMap_some

omit [DecidableEq ι] in
/-- A delivery reads the clock once. -/
theorem filterMap_turn_delivery (i : ι) (subscribers : ℕ) (reading : ℤ) :
    (delivery i subscribers reading : List (Act ι α)).filterMap turn=[reading] := by
  have hnone : (List.replicate subscribers (.handlerReturns i : Act ι α)).filterMap turn=[] := by
    rw [List.filterMap_eq_nil_iff]
    intro a ha
    rw [List.eq_of_mem_replicate ha]
    rfl
  have hfirst : turn (.readClock i reading : Act ι α)=some reading := rfl
  rw [delivery,List.filterMap_cons_some hfirst,List.filterMap_append,hnone]
  rfl

/-- The loop of `_get` is made of the caller's own steps. -/
theorem receive_shown {s : State ι α} {i : ι} {t : Message α} {rest : List (Message α)}
    (h : Reaches (next subscribers) (Own i) start done s) (hf : s.frame i=.waiting)
    (hq : s.chan.queue=t::rest) (clock : List ℤ) :
    ∃ own u,Reaches (next subscribers) (Own i) start (done++own) u ∧
      own.filterMap turn++(receive s.chan clock).unread=clock ∧
      Shown i s u (receive s.chan clock) := by
  have hmove : s.chan.moveBack=some (t,{s.chan with queue := t.movedFrom::rest}) := by
    simp only [AsyncDelay.moveBack,hq]
  -- a reading earlier than the entry changes nothing
  have hidle : ∀ readings : List ℤ,(∀ r∈readings,r < t.timestamp) →
      Reaches (next subscribers) (Own i) start (done++readings.map (.readClock i)) s := by
    intro readings hall
    refine h.idle_steps fun a ha => ?_
    obtain ⟨r,hr,rfl⟩ := List.mem_map.mp ha
    refine ⟨rfl,?_⟩
    simp only [next,hf,hmove,if_pos (hall r hr)]
  rcases receive_cases hq clock with ⟨hall,heq⟩|⟨before,reading,unread,hclock,hbefore,hdue,heq⟩
  · refine ⟨clock.map (.readClock i),s,hidle clock hall,?_,?_⟩
    · rw [heq,filterMap_turn fun _ => rfl]
      exact List.append_nil clock
    · rw [heq]
      have hbusy : s.frame i≠.idle := by
        intro hidle
        rw [hf] at hidle
        cases hidle
      exact ⟨rfl,hbusy,rfl⟩
  · obtain ⟨u,hu,hchan,hframe,hhanded⟩ := reaches_delivery (hidle before hbefore) hf hq hdue
    rw [List.append_assoc] at hu
    refine ⟨_,u,hu,?_,?_⟩
    · rw [heq,List.filterMap_append,filterMap_turn fun _ => rfl,filterMap_turn_delivery,hclock,
        List.append_assoc]
      rfl
    · rw [heq]
      exact ⟨hchan,hframe,rest,hhanded⟩

/-- `get()` from the semaphore on is made of the caller's own steps. -/
theorem get_shown {s : State ι α} {i : ι} {t : Message α} {rest : List (Message α)}
    (h : Reaches (next subscribers) (Own i) start done s) (hf : s.frame i=.atSem)
    (hq : s.chan.queue=t::rest) (hc : s.chan.empty=false) (clock : List ℤ) :
    ∃ own u,Reaches (next subscribers) (Own i) start (done++own) u ∧
      own.filterMap turn++(get s.chan clock).unread=clock ∧ Shown i s u (get s.chan clock) := by
  have hpos : s.chan.sem.len > 0 := by
    have hlt := of_decide_eq_false hc
    simp only [Semaphore.size] at hlt
    omega
  have hpass : next subscribers s (.semWait i)=
      some {s.goto i .waiting with chan := ⟨s.chan.queue,⟨s.chan.sem.len-1⟩⟩} := by
    simp only [next,hf,AsyncDelay.semWait,Semaphore.wait,if_pos hpos,Option.map_some]
  have hown : Own i s (.semWait i) := rfl
  have hpassed := h.step _ hown hpass
  obtain ⟨own,u,hu,hturns,hshown⟩ := receive_shown hpassed (Function.update_self _ _ _) hq clock
  rw [List.append_assoc,List.singleton_append] at hu
  rw [get_of_nonempty hc]
  exact ⟨.semWait i::own,u,hu,hturns,hshown⟩

/-- `update()` is made of the caller's own steps, and reads the clock as often
as they do. -/
theorem update_shown {s : State ι α} {i : ι} (hf : s.frame i=.idle)
    (hq : s.chan.empty=false → s.chan.queue≠[]) (clock : List ℤ) :
    ∃ own u,Reaches (next subscribers) (Own i) s (.update i::own) u ∧
      own.filterMap turn++(update s.chan clock).unread=clock ∧
      Shown i s u (update s.chan clock) := by
  have hown : Own i s (.update i) := rfl
  cases hc : s.chan.empty with
  | true =>
    have hstep : next subscribers s (.update i)=some s := by simp only [next,hf,hc,if_true]
    rw [update,if_pos hc]
    exact ⟨[],s,Reaches.step _ .start hown hstep,rfl,rfl,hf,rfl⟩
  | false =>
    obtain ⟨t,rest,hqueue⟩ := List.exists_cons_of_ne_nil (hq hc)
    have hstep : next subscribers s (.update i)=some (s.goto i .atSem) := by
      simp only [next,hf,hc,Bool.false_eq_true,if_false]
    have hcalled := Reaches.step _ .start hown hstep
    obtain ⟨own,u,hu,hturns,hshown⟩ := get_shown hcalled (Function.update_self _ _ _) hqueue hc
      clock
    rw [update,if_neg (by rw [hc]; exact Bool.false_ne_true)]
    exact ⟨own,u,hu,hturns,hshown⟩

/-- A timed `wait` is made of the caller's own steps, and reads the clock as
often as they do. -/
theorem wait_shown {s : State ι α} {i : ι} (hf : s.frame i=.idle)
    (hq : s.chan.empty=false → s.chan.queue≠[]) {timeout : ℤ} (htimeout : timeout > 0) (entry : ℤ)
    (clock : List ℤ) :
    ∃ own u,Reaches (next subscribers) (Own i) s (.wait i timeout entry::own) u ∧
      own.filterMap turn++(wait timeout entry s.chan clock).unread=clock ∧
      Shown i s u (wait timeout entry s.chan clock) := by
  have hstep : next subscribers s (.wait i timeout entry)=
      some (s.goto i (.polling (entry+timeout))) := by simp only [next,hf,if_pos htimeout]
  have hown : Own i s (.wait i timeout entry) := rfl
  have hcalled := Reaches.step _ .start hown hstep
  have hpolling : (s.goto i (.polling (entry+timeout))).frame i=.polling (entry+timeout) :=
    Function.update_self _ _ _
  generalize hv : s.goto i (.polling (entry+timeout))=v at hcalled hpolling
  have hbusy : v.frame i≠.idle := by
    intro hidle
    rw [hpolling] at hidle
    cases hidle
  have hturn : ∀ reading,Own i v (.poll i reading) := fun _ => rfl
  have hchan : v.chan=s.chan := by rw [←hv]; rfl
  have hhanded : v.handed=s.handed := by rw [←hv]; rfl
  rw [wait,if_pos htimeout]
  cases hc : s.chan.empty with
  | true =>
    have hidle : ∀ readings : List ℤ,(∀ r∈readings,r ≤ entry+timeout) →
        Reaches (next subscribers) (Own i) s
          ([.wait i timeout entry]++readings.map (.poll i)) v := by
      intro readings hall
      refine hcalled.idle_steps fun a ha => ?_
      obtain ⟨r,hr,rfl⟩ := List.mem_map.mp ha
      refine ⟨rfl,?_⟩
      simp only [next,hpolling,if_pos (hall r hr),hchan,hc,if_true]
    rcases poll_of_empty hc (entry+timeout) clock with
      ⟨hall,heq⟩|⟨before,reading,unread,hclock,hbefore,hpast,heq⟩
    · refine ⟨clock.map (.poll i),v,hidle clock hall,?_,?_⟩
      · rw [heq,filterMap_turn fun _ => rfl]
        exact List.append_nil clock
      · rw [heq]
        exact ⟨hchan,hbusy,hhanded⟩
    · have hnot : ¬reading ≤ entry+timeout := by omega
      have hleave : next subscribers v (.poll i reading)=some (v.goto i .idle) := by
        simp only [next,hpolling,if_neg hnot]
      have hleft := (hidle before hbefore).step _ (hturn reading) hleave
      rw [List.append_assoc,List.singleton_append] at hleft
      refine ⟨before.map (.poll i)++[.poll i reading],_,hleft,?_,?_⟩
      · rw [heq,List.filterMap_append,filterMap_turn fun _ => rfl,hclock,List.append_assoc]
        rfl
      · rw [heq]
        exact ⟨hchan,Function.update_self _ _ _,hhanded⟩
  | false =>
    obtain ⟨t,rest,hqueue⟩ := List.exists_cons_of_ne_nil (hq hc)
    cases clock with
    | nil => exact ⟨[],v,hcalled,rfl,hchan,hbusy,hhanded⟩
    | cons reading clock =>
      rw [poll]
      by_cases hle : reading ≤ entry+timeout
      · have henter : next subscribers v (.poll i reading)=some (v.goto i .atSem) := by
          simp only [next,hpolling,if_pos hle,hchan,hc,Bool.false_eq_true,if_false]
        have hentered := hcalled.step _ (hturn reading) henter
        have hsame : (v.goto i .atSem).chan=s.chan := hchan
        obtain ⟨own,u,hu,hturns,hshown⟩ := get_shown hentered (Function.update_self _ _ _)
          (by rw [hsame]; exact hqueue) (by rw [hsame]; exact hc) clock
        rw [hsame] at hturns hshown
        rw [if_pos hle,if_neg (by rw [hc]; exact Bool.false_ne_true)]
        exact ⟨.poll i reading::own,u,hu,congrArg (reading::·) hturns,hshown.of_handed hhanded⟩
      · have hleave : next subscribers v (.poll i reading)=some (v.goto i .idle) := by
          simp only [next,hpolling,if_neg hle]
        have hleft := hcalled.step _ (hturn reading) hleave
        rw [if_neg hle]
        exact ⟨[.poll i reading],_,hleft,rfl,hchan,Function.update_self _ _ _,hhanded⟩

/-- A positive count has an entry in the vector, in every reachable state. -/
theorem queue_ne_nil [Fintype ι] {acts : List (Act ι α)} {s : State ι α}
    (h : Reaches (next subscribers) Unrestricted .start acts s) (hc : s.chan.empty=false) :
    s.chan.queue≠[] := by
  have hmatched : Matched s := h.invariant matched_start fun hi _ hn => matched_step hi hn
  have hpos := of_decide_eq_false hc
  intro hnil
  rw [Matched,hnil,List.length_nil] at hmatched
  simp only [Semaphore.size] at hpos
  omega

end Machine

/-- Single calls against the clock, from every reachable state in which nobody
is inside a call and for every list of readings. `update()` respects time
exactly when the channel is empty or its head is due at the first reading. A
timed `wait` does exactly when the channel is empty, or the head is due by the
mark, or the first turn of its loop is past the mark, or no reading is. -/
theorem single_calls_timely_iff [Fintype ι] [DecidableEq ι] {subscribers : ℕ}
    {acts : List (Act ι α)} {s : State ι α}
    (h : Reaches (next subscribers) Unrestricted .start acts s) (clock : List ℤ) :
    (UpdateTimely s.chan clock ↔ s.chan.empty=true ∨
      ∀ t∈s.chan.queue.head?,∀ first∈clock.head?,t.timestamp ≤ first) ∧
    ∀ timeout > 0,∀ entry,
      (WaitTimely timeout entry s.chan clock ↔ s.chan.empty=true ∨
        (∀ t∈s.chan.queue.head?,t.timestamp ≤ entry+timeout) ∨
        (∀ first∈clock.head?,entry+timeout < first) ∨ ∀ r∈clock,r ≤ entry+timeout) := by
  cases hc : s.chan.empty with
  | true =>
    refine ⟨iff_of_true ?_ (.inl rfl),fun timeout htimeout entry =>
      iff_of_true (waitTimely_of_empty hc htimeout entry clock) (.inl rfl)⟩
    rw [UpdateTimely,update,if_pos hc]
  | false =>
    obtain ⟨t,rest,hq⟩ := List.exists_cons_of_ne_nil (queue_ne_nil h hc)
    have hne : ¬false=true := Bool.false_ne_true
    refine ⟨?_,fun timeout htimeout entry => ?_⟩
    · rw [updateTimely_iff hq hc,or_iff_right hne,hq]
      simp only [List.head?_cons,Option.mem_some_iff,forall_eq']
    · rw [waitTimely_iff hq hc htimeout,or_iff_right hne,hq]
      simp only [List.head?_cons,Option.mem_some_iff,forall_eq']

/-- One message due at 50 is pending. -/
def dueAtFifty : List (Act (Fin 1) ℕ) := [.operatorCall 0 50 7 (insertionSort ℕ)]

/-- An `update()` at 50 and a `wait(20)` entered at 35 dispatch it in time. -/
theorem single_calls_timely_due :
    ∃ s : State (Fin 1) ℕ,Reaches (next 1) Unrestricted .start dueAtFifty s ∧
      s.chan.queue=[⟨0,50,some 7⟩] ∧ UpdateTimely s.chan [50,51] ∧
      WaitTimely 20 35 s.chan [36,40,52,60] := by
  obtain ⟨s,hs,hseen⟩ := reaches_of_replay (next 1) Unrestricted .start dueAtFifty
    (fun s => s.chan.queue) [⟨0,50,some 7⟩] (by decide)
  refine ⟨s,hs,hseen,(single_calls_timely_iff hs _).1.mpr ?_,
    ((single_calls_timely_iff hs _).2 20 (by decide) 35).mpr ?_⟩
  · rw [hseen]
    exact .inr (by decide)
  · rw [hseen]
    exact .inr (.inl (by decide))

/-- With the message due at 50, `update()` at 10 stays until 60 and dispatches,
and `wait(5)` entered at 10 does the same long after its mark. -/
theorem early_calls_overstay :
    ∃ s : State (Fin 1) ℕ,Reaches (next 1) Unrestricted .start dueAtFifty s ∧
      s.frame 0=.idle ∧ ¬UpdateTimely s.chan [10,20,60] ∧
      ¬WaitTimely 5 10 s.chan [11,20,60] := by
  obtain ⟨s,hs,hseen⟩ := reaches_of_replay (next 1) Unrestricted .start dueAtFifty
    (fun s => (s.chan.queue,s.chan.sem,s.frame 0)) ([⟨0,50,some 7⟩],⟨1⟩,.idle) (by decide)
  simp only [Prod.mk.injEq] at hseen
  obtain ⟨hq,hsem,hf⟩ := hseen
  have hc : s.chan.empty=false := by rw [AsyncDelay.empty,hsem]; rfl
  refine ⟨s,hs,hf,?_,?_⟩
  · rw [updateTimely_iff hq hc]
    exact fun htimely => absurd (htimely 10 rfl) (by decide)
  · rw [waitTimely_iff hq hc (by decide)]
    decide

end FastEventSystem.DelayTiming
