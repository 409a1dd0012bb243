import FastEventSystem.FastThreads

/-!
# Accounting of a fast channel shared by producers and consumers

Three ledgers are kept by every step of every thread. The stored tuples match
the semaphore's count plus the producers and consumers between the two
counters. Sent tuples are stored or were taken. Taken tuples were handed over
or are held by the call which took them. Handlers may send, receive and throw.
-/

namespace FastEventSystem.FastAccounting

open CountingSemaphore FastChannel FastThreads GuardedRuns PartyTotals

variable {ι α : Type*} [Fintype ι]

/-- Producers between `enqueue` and `notify`. -/
def producers (s : State ι α) : ℕ := stackTotal (fun _ _ f => Frame.producing f) s.stack

/-- Consumers between `_sem.wait()` and `wait_dequeue`. -/
def consumers (s : State ι α) : ℕ := stackTotal (fun _ _ f => Frame.consuming f) s.stack

/-- Tuples between `wait_dequeue` and the hand-over, each with its consumer. -/
def held (s : State ι α) : Multiset (Receipt ι α) :=
  stackTotal (fun i depth f => Frame.holding i depth f) s.stack

omit [Fintype ι] in
/-- Plain frames are outside both critical sections and hold nothing. -/
theorem plain_weights {f : Frame α} (h : f.plain=true) (i : ι) (depth : ℕ) :
    f.producing=0 ∧ f.consuming=0 ∧ f.holding i depth=0 := by
  cases f with
  | polling | atSem | dispatching => exact ⟨rfl,rfl,rfl⟩
  | notifying | looping | passed | taken => contradiction

/-- Stored tuples match the count and the calls between the two counters. -/
def Matched (s : State ι α) : Prop :=
  s.chan.queue.length=s.chan.sem.len+producers s+consumers s

/-- Every send has its own ticket, and its tuple is stored or was taken. -/
structure Ledger (s : State ι α) : Prop where
  /-- Sent tuples are the stored and the taken ones. -/
  split : s.sent.Perm (s.chan.queue++s.taken.map Receipt.tuple)
  /-- Tickets are given out in order. -/
  issued : ∀ t∈s.sent,t.ticket < s.tickets
  /-- No two sends share a ticket. -/
  distinct : (s.sent.map Tuple.ticket).Nodup

/-- Taken tuples were handed over by their consumer or are still held by it. -/
def Receipted (s : State ι α) : Prop :=
  (s.taken : Multiset (Receipt ι α))=(s.handed : Multiset (Receipt ι α))+held s

variable [DecidableEq ι]

/-- A call adds its frame to both counts. -/
theorem counts_push (s : State ι α) (i : ι) (f : Frame α) :
    producers (s.goto i (f::s.stack i))=producers s+f.producing ∧
      consumers (s.goto i (f::s.stack i))=consumers s+f.consuming :=
  ⟨stackTotal_push _ _ _ _,stackTotal_push _ _ _ _⟩

/-- A return takes its frame from both counts. -/
theorem counts_pop {s : State ι α} {i : ι} {f : Frame α} {rest : List (Frame α)}
    (hs : s.stack i=f::rest) :
    producers (s.goto i rest)+f.producing=producers s ∧
      consumers (s.goto i rest)+f.consuming=consumers s :=
  ⟨stackTotal_pop _ _ _ hs,stackTotal_pop _ _ _ hs⟩

/-- A step inside a call exchanges its frame in both counts. -/
theorem counts_turn {s : State ι α} {i : ι} {f : Frame α} {rest : List (Frame α)}
    (hs : s.stack i=f::rest) (g : Frame α) :
    producers (s.goto i (g::rest))+f.producing=producers s+g.producing ∧
      consumers (s.goto i (g::rest))+f.consuming=consumers s+g.consuming :=
  ⟨stackTotal_turn _ _ _ hs _,stackTotal_turn _ _ _ hs _⟩

/-- Every step changes the stored tuples and the counters by the same amount,
so a surplus of the counters stays as it is. -/
theorem surplus_step {k : ℕ} {s s' : State ι α} {a : Act ι α}
    (hb : s.chan.queue.length+k=s.chan.sem.len+producers s+consumers s) (h : next s a=some s') :
    s'.chan.queue.length+k=s'.chan.sem.len+producers s'+consumers s' := by
  cases next_effect h with
  | enqueue i data =>
    have hc := counts_push s i .notifying
    simp only [Frame.producing,Frame.consuming] at hc
    change (s.chan.queue++[_]).length+k=s.chan.sem.len+
      producers (s.goto i (.notifying::s.stack i))+consumers (s.goto i (.notifying::s.stack i))
    rw [List.length_append,List.length_singleton]
    omega
  | notify i rest hs =>
    have hc := counts_pop hs
    simp only [Frame.producing,Frame.consuming] at hc
    change s.chan.queue.length+k=(s.chan.sem.len+1)+producers (s.goto i rest)+
      consumers (s.goto i rest)
    omega
  | stays => exact hb
  | calls _ i f hf =>
    have hw := plain_weights hf i 0
    have hc := counts_push s i f
    change s.chan.queue.length+k=s.chan.sem.len+producers (s.goto i (f::s.stack i))+
      consumers (s.goto i (f::s.stack i))
    omega
  | turns _ i f g rest hs hf hg =>
    have hwf := plain_weights hf i 0
    have hwg := plain_weights hg i 0
    have hc := counts_turn hs g
    change s.chan.queue.length+k=s.chan.sem.len+producers (s.goto i (g::rest))+
      consumers (s.goto i (g::rest))
    omega
  | leaves _ i f rest hs hf =>
    have hw := plain_weights hf i 0
    have hc := counts_pop hs
    change s.chan.queue.length+k=s.chan.sem.len+producers (s.goto i rest)+
      consumers (s.goto i rest)
    omega
  | semWait i yields g rest chan hs hg hw =>
    obtain ⟨hq,hsem⟩ := semWait_eq_some hw
    have hc := counts_turn hs g
    have hgp : g.producing=0 := by rcases hg with rfl|rfl <;> rfl
    have hgc : g.consuming=1 := by rcases hg with rfl|rfl <;> rfl
    rw [hgp,hgc] at hc
    simp only [Frame.producing,Frame.consuming] at hc
    change chan.queue.length+k=chan.sem.len+producers (s.goto i (g::rest))+
      consumers (s.goto i (g::rest))
    rw [hq]
    omega
  | loopEnds i rest hs =>
    have hc := counts_turn hs .passed
    simp only [Frame.producing,Frame.consuming] at hc
    change s.chan.queue.length+k=s.chan.sem.len+producers (s.goto i (.passed::rest))+
      consumers (s.goto i (.passed::rest))
    omega
  | waitDequeue i position t rest chan hs hd =>
    obtain ⟨hperm,hsem⟩ := waitDequeue_eq_some hd
    have hlen := hperm.length_eq
    have hc := counts_turn hs (.taken t)
    simp only [Frame.producing,Frame.consuming] at hc
    change chan.queue.length+k=chan.sem.len+producers (s.goto i (.taken t::rest))+
      consumers (s.goto i (.taken t::rest))
    rw [List.length_cons] at hlen
    rw [hsem]
    omega
  | handOver i t rest hs =>
    have hc := counts_turn hs (.dispatching t)
    simp only [Frame.producing,Frame.consuming] at hc
    change s.chan.queue.length+k=s.chan.sem.len+producers (s.goto i (.dispatching t::rest))+
      consumers (s.goto i (.dispatching t::rest))
    omega

/-- The balance survives every step. -/
theorem matched_step {s s' : State ι α} {a : Act ι α} (hb : Matched s)
    (h : next s a=some s') : Matched s' := surplus_step (k := 0) hb h

omit [Fintype ι] in
/-- A fresh ticket keeps the tickets distinct, and no step loses a tuple. -/
theorem ledger_step {s s' : State ι α} {a : Act ι α} (hl : Ledger s)
    (h : next s a=some s') : Ledger s' := by
  cases next_effect h with
  | enqueue i data =>
    refine ⟨?_,fun t ht => ?_,?_⟩
    · change (_::s.sent).Perm ((s.chan.queue++[_])++s.taken.map Receipt.tuple)
      rw [List.append_assoc,List.singleton_append]
      exact (hl.split.cons _).trans List.perm_middle.symm
    · rcases List.mem_cons.mp ht with rfl|ht
      · exact Nat.lt_succ_self _
      · exact Nat.lt_succ_of_lt (hl.issued t ht)
    · refine List.nodup_cons.mpr ⟨fun hmem => ?_,hl.distinct⟩
      obtain ⟨t,ht,he⟩ := List.mem_map.mp hmem
      have hlt := hl.issued t ht
      dsimp only at he
      omega
  | semWait i yields g rest chan hs hg hw =>
    obtain ⟨hq,-⟩ := semWait_eq_some hw
    refine ⟨?_,hl.issued,hl.distinct⟩
    change s.sent.Perm (chan.queue++s.taken.map Receipt.tuple)
    rw [hq]
    exact hl.split
  | waitDequeue i position t rest chan hs hd =>
    obtain ⟨hperm,-⟩ := waitDequeue_eq_some hd
    refine ⟨?_,hl.issued,hl.distinct⟩
    have hmiddle : (t::chan.queue++s.taken.map Receipt.tuple).Perm
        (chan.queue++t::s.taken.map Receipt.tuple) := List.perm_middle.symm
    exact hl.split.trans ((hperm.append_right _).trans hmiddle)
  | notify i rest hs => exact ⟨hl.split,hl.issued,hl.distinct⟩
  | stays => exact hl
  | calls => exact ⟨hl.split,hl.issued,hl.distinct⟩
  | turns => exact ⟨hl.split,hl.issued,hl.distinct⟩
  | leaves => exact ⟨hl.split,hl.issued,hl.distinct⟩
  | loopEnds => exact ⟨hl.split,hl.issued,hl.distinct⟩
  | handOver => exact ⟨hl.split,hl.issued,hl.distinct⟩

/-- A dequeue adds to what its consumer holds, a hand-over takes it away, and
nothing else touches receipts. -/
theorem receipted_step {s s' : State ι α} {a : Act ι α} (hr : Receipted s)
    (h : next s a=some s') : Receipted s' := by
  unfold Receipted at hr ⊢
  cases next_effect h with
  | stays => exact hr
  | enqueue i data =>
    have hh : held (s.goto i (.notifying::s.stack i))=held s+0 := stackTotal_push _ _ _ _
    rw [add_zero] at hh
    exact hr.trans (congrArg _ hh.symm)
  | notify i rest hs =>
    have hh : held (s.goto i rest)+0=held s := stackTotal_pop _ _ _ hs
    rw [add_zero] at hh
    exact hr.trans (congrArg _ hh.symm)
  | calls _ i f hf =>
    have hh : held (s.goto i (f::s.stack i))=held s+f.holding i (s.stack i).length :=
      stackTotal_push _ _ _ _
    rw [(plain_weights hf i _).2.2,add_zero] at hh
    exact hr.trans (congrArg _ hh.symm)
  | turns _ i f g rest hs hf hg =>
    have hh : held (s.goto i (g::rest))+f.holding i rest.length=
        held s+g.holding i rest.length := stackTotal_turn _ _ _ hs _
    rw [(plain_weights hf i _).2.2,(plain_weights hg i _).2.2,add_zero,add_zero] at hh
    exact hr.trans (congrArg _ hh.symm)
  | leaves _ i f rest hs hf =>
    have hh : held (s.goto i rest)+f.holding i rest.length=held s := stackTotal_pop _ _ _ hs
    rw [(plain_weights hf i _).2.2,add_zero] at hh
    exact hr.trans (congrArg _ hh.symm)
  | semWait i yields g rest chan hs hg hw =>
    have hh : held (s.goto i (g::rest))+0=held s+g.holding i rest.length :=
      stackTotal_turn _ _ _ hs _
    have hg0 : g.holding i rest.length=0 := by rcases hg with rfl|rfl <;> rfl
    rw [hg0,add_zero,add_zero] at hh
    exact hr.trans (congrArg _ hh.symm)
  | loopEnds i rest hs =>
    have hh : held (s.goto i (.passed::rest))+0=held s+0 := stackTotal_turn _ _ _ hs _
    rw [add_zero,add_zero] at hh
    exact hr.trans (congrArg _ hh.symm)
  | waitDequeue i position t rest chan hs hd =>
    have hh : held (s.goto i (.taken t::rest))+0=held s+{⟨i,rest.length,t⟩} :=
      stackTotal_turn _ _ _ hs _
    rw [add_zero] at hh
    change ((⟨i,rest.length,t⟩::s.taken : List (Receipt ι α)) : Multiset (Receipt ι α))=
      (s.handed : Multiset (Receipt ι α))+held (s.goto i (.taken t::rest))
    rw [hh,←add_assoc,←hr,←Multiset.cons_coe,←Multiset.singleton_add,add_comm]
  | handOver i t rest hs =>
    have hh : held (s.goto i (.dispatching t::rest))+{⟨i,rest.length,t⟩}=held s+0 :=
      stackTotal_turn _ _ _ hs _
    rw [add_zero] at hh
    change (s.taken : Multiset (Receipt ι α))=
      ((⟨i,rest.length,t⟩::s.handed : List (Receipt ι α)) : Multiset (Receipt ι α))+
        held (s.goto i (.dispatching t::rest))
    rw [hr,←hh,←Multiset.cons_coe,←Multiset.singleton_add]
    ac_rfl

/-- All three ledgers. -/
structure Accounted (s : State ι α) : Prop where
  /-- Stored tuples match the counters. -/
  matched : Matched s
  /-- Sent tuples are stored or taken. -/
  ledger : Ledger s
  /-- Taken tuples are handed over or held. -/
  receipted : Receipted s

omit [DecidableEq ι] in
/-- Nobody holds anything at the start. -/
theorem accounted_start : Accounted (State.start : State ι α) where
  matched := by
    have hp : producers (State.start : State ι α)=0 := total_eq_zero _ _ fun _ => rfl
    have hc : consumers (State.start : State ι α)=0 := total_eq_zero _ _ fun _ => rfl
    rw [Matched,hp,hc]
    rfl
  ledger := ⟨List.Perm.refl _,fun _ h => False.elim (List.not_mem_nil h),List.nodup_nil⟩
  receipted := by
    have hh : held (State.start : State ι α)=0 := total_eq_zero _ _ fun _ => rfl
    rw [Receipted,hh]
    rfl

/-- The ledgers hold in every state of every interleaving. -/
theorem accounted_of_reaches {acts : List (Act ι α)} {s : State ι α}
    (h : Reaches next Unrestricted .start acts s) : Accounted s :=
  h.invariant accounted_start fun hi _ hn =>
    ⟨matched_step hi.matched hn,ledger_step hi.ledger hn,receipted_step hi.receipted hn⟩

/-- The count never exceeds the stored tuples. -/
theorem size_le_stored {acts : List (Act ι α)} {s : State ι α}
    (h : Reaches next Unrestricted .start acts s) : s.chan.size ≤ s.chan.queue.length := by
  have hcount : s.chan.queue.length=s.chan.size+producers s+consumers s :=
    (accounted_of_reaches h).matched
  omega

/-- The fast channel between threads. In every state of every interleaving of
producers and consumers, with handlers which send, receive or throw: stored
tuples equal the count plus the producers and consumers between the counters;
a consumer past the semaphore finds a tuple, so its dequeue does not block; a
tuple is taken once and handed over at most once, by its taker; no sent tuple
disappears untaken; and the count never exceeds the tuples not yet taken. -/
theorem fast_channel_accounting {acts : List (Act ι α)} {s : State ι α}
    (h : Reaches next Unrestricted .start acts s) :
    s.chan.queue.length=s.chan.size+producers s+consumers s ∧
    (∀ i,∀ f∈s.stack i,f=.looping ∨ f=.passed → s.chan.queue≠[]) ∧
    (∀ i rest,s.stack i=.passed::rest → ∃ s',next s (.waitDequeue i 0)=some s') ∧
    (s.sent.map Tuple.ticket).Nodup ∧
    (s.taken.map fun r => r.tuple.ticket).Nodup ∧
    (s.handed.map fun r => r.tuple.ticket).Nodup ∧ (∀ r∈s.handed,r∈s.taken) ∧
    s.sent.Perm (s.chan.queue++s.taken.map Receipt.tuple) ∧
    s.chan.size ≤ s.chan.queue.length := by
  obtain ⟨hb,hl,hr⟩ := accounted_of_reaches h
  have hcount : s.chan.queue.length=s.chan.size+producers s+consumers s := hb
  have hfound : ∀ i,∀ f∈s.stack i,f=.looping ∨ f=.passed → s.chan.queue≠[] := by
    intro i f hf hwhich hnil
    have hone : f.consuming=1 := by rcases hwhich with rfl|rfl <;> rfl
    have hle : f.consuming ≤ consumers s := le_stackTotal Frame.consuming hf
    rw [hnil,List.length_nil] at hcount
    omega
  have htaken : (s.taken.map fun r => r.tuple.ticket).Nodup := by
    have hall := (hl.split.map Tuple.ticket).nodup_iff.mp hl.distinct
    rw [List.map_append,List.map_map] at hall
    exact (List.nodup_append.mp hall).2.1
  have hle : (s.handed : Multiset (Receipt ι α)) ≤ s.taken := by
    rw [hr]
    exact Multiset.le_add_right _ _
  refine ⟨hcount,hfound,fun i rest hs => ?_,hl.distinct,htaken,?_,?_,hl.split,size_le_stored h⟩
  · obtain ⟨t,chan,hd⟩ := waitDequeue_of_nonempty
      (hfound i .passed (by rw [hs]; exact List.mem_cons_self) (.inr rfl))
    exact ⟨_,by simp only [next,hs,hd,Option.map_some]; rfl⟩
  · exact Multiset.coe_nodup.mp (Multiset.nodup_of_le (Multiset.map_le_map hle)
      (Multiset.coe_nodup.mpr htaken))
  · exact fun r hmem => Multiset.mem_coe.mp (Multiset.mem_of_le hle (Multiset.mem_coe.mpr hmem))

/-- Two producers overlap, a coroutine waits between the two counters until the
second notify, and the handler of another consumer sends and then throws. -/
def overlappingRun : List (Act (Fin 3) ℕ) :=
  [.enqueue 0 10,.enqueue 1 20,.notify 0,.get 2 true,.semWait 2,.testCount 2,.notify 1,
    .get 0 false,.testCount 2,.semWait 0,.waitDequeue 0 1,.waitDequeue 2 0,.handOver 0,
    .enqueue 0 30,.notify 0,.throws 0,.handOver 2,.returns 2]

/-- The overlapping run takes two tuples, hands over both and keeps the third. -/
theorem fast_channel_accounting_overlapping :
    ∃ s : State (Fin 3) ℕ,Reaches next Unrestricted .start overlappingRun s ∧
      s.handed=[⟨2,0,0,10⟩,⟨0,0,1,20⟩] ∧ s.chan.queue=[⟨2,30⟩] ∧
      s.chan.queue.length=s.chan.size+producers s+consumers s := by
  obtain ⟨s,hs,hseen⟩ := reaches_of_replay next Unrestricted .start overlappingRun
    (fun s => (s.handed,s.chan.queue)) ([⟨2,0,0,10⟩,⟨0,0,1,20⟩],[⟨2,30⟩]) (by decide)
  simp only [Prod.mk.injEq] at hseen
  exact ⟨s,hs,hseen.1,hseen.2,(fast_channel_accounting hs).1⟩

end FastEventSystem.FastAccounting
