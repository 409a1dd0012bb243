import FastEventSystem.FastOverQueue

/-!
# The plain store is a sound picture of the queue

Every run of a fast channel over its real queue is matched by a run of the
channel with the plain store, in which `enqueue` and `wait_dequeue` happen at
once. The matched run has the same count, the same calls on all stacks and the
same histories of tuples sent, taken and handed over; only the numbers of the
sends, which no operation reads, are forgotten. A failed `enqueue` is matched by
a failed one.

What is known about the plain store then holds for the queue. In particular two
counters stand in front of it, `_sem` and the semaphore of the queue itself, and
since the first one is raised later and lowered earlier, nobody ever sleeps at
the second one.
-/

namespace FastEventSystem.FastOverQueue

open CircularWords CountingSemaphore FastChannel FastThreads FastAccounting GuardedRuns PartyTotals

variable {ι α : Type*}

section View

/-- A tuple without the number of its send. -/
def erase (t : Tuple α) : Tuple α := ⟨0,t.data⟩

/-- A call whose tuple has no number. -/
def eraseFrame : Frame α → Frame α
  | .taken t => .taken (erase t)
  | .dispatching t => .dispatching (erase t)
  | f => f

/-- A receipt whose tuple has no number. -/
def eraseReceipt (r : Receipt ι α) : Receipt ι α := ⟨r.thread,r.depth,erase r.tuple⟩

/-- What of a channel with the plain store can be seen without its store and
without the numbers of the sends. -/
def view (f : FastThreads.State ι α) : FastThreads.State ι α where
  chan := ⟨[],f.chan.sem⟩
  stack i := (f.stack i).map eraseFrame
  tickets := 0
  sent := f.sent.map erase
  taken := f.taken.map eraseReceipt
  handed := f.handed.map eraseReceipt

/-- Who may call may call. -/
@[simp] theorem mayCall_erase (st : List (Frame α)) : mayCall (st.map eraseFrame)=mayCall st := by
  cases st with
  | nil => rfl
  | cons f rest => cases f <;> rfl

/-- The calls of one thread. -/
theorem view_stack (f : FastThreads.State ι α) (i : ι) :
    (view f).stack i=(f.stack i).map eraseFrame := rfl

/-- A call at `wait_dequeue` is seen as such. -/
theorem stack_of_view {st rest : List (Frame α)} (h : st.map eraseFrame=.passed::rest) :
    ∃ rest',st=.passed::rest' ∧ rest'.map eraseFrame=rest := by
  obtain ⟨g,rest',rfl,hg,hrest⟩ := List.map_eq_cons_iff.mp h
  cases g with
  | passed => exact ⟨rest',rfl,hrest⟩
  | _ => cases hg

variable [DecidableEq ι]

/-- Moving one thread. -/
@[simp] theorem view_goto (f : FastThreads.State ι α) (i : ι) (st : List (Frame α)) :
    view (f.goto i st)=(view f).goto i (st.map eraseFrame) := by
  have hstack : (fun j => (Function.update f.stack i st j).map eraseFrame)=
      Function.update (fun j => (f.stack j).map eraseFrame) i (st.map eraseFrame) := by
    funext j
    by_cases hj : j=i
    · rw [hj,Function.update_self,Function.update_self]
    · rw [Function.update_of_ne hj,Function.update_of_ne hj]
  simp only [view,FastThreads.State.goto,hstack]

/-- Making a call. -/
theorem view_call (f : FastThreads.State ι α) (i : ι) {g : Frame α} (hg : eraseFrame g=g) :
    (view f).call i g=(f.call i g).map view := by
  unfold FastThreads.State.call
  rw [view_stack,mayCall_erase]
  split
  · rw [Option.map_some,view_goto,List.map_cons,hg]
  · rfl

/-- A step outside the queue does not see the difference. -/
theorem next_view (f : FastThreads.State ι α) {a : FastThreads.Act ι α} (ha : outside a=true) :
    FastThreads.next (view f) a=(FastThreads.next f a).map view := by
  cases a with
  | enqueue => cases ha
  | waitDequeue => cases ha
  | notify i =>
    simp only [FastThreads.next,view_stack]
    rcases f.stack i with _|⟨g,rest⟩
    · rfl
    · cases g <;> try rfl
      exact congrArg (fun v => some {v with chan := (view f).chan.notify}) (view_goto f i rest).symm
  | get i yields => exact view_call f i rfl
  | update i =>
    simp only [FastThreads.next,view_stack,mayCall_erase]
    change (if f.chan.empty=true then _ else _)=_
    split
    · split <;> rfl
    · exact view_call f i rfl
  | wait i timeout reading yields =>
    simp only [FastThreads.next]
    split
    · exact view_call f i rfl
    · exact view_call f i rfl
  | poll i reading =>
    simp only [FastThreads.next,view_stack]
    rcases f.stack i with _|⟨g,rest⟩
    · rfl
    · cases g <;> try rfl
      simp only [List.map_cons,eraseFrame]
      split
      · change (if f.chan.empty=true then _ else _)=_
        split
        · rfl
        · rw [Option.map_some,view_goto,List.map_cons]
          rfl
      · rw [Option.map_some,view_goto]
  | semWait i =>
    simp only [FastThreads.next,view_stack]
    rcases f.stack i with _|⟨g,rest⟩
    · rfl
    · cases g <;> try rfl
      rename_i yields
      simp only [List.map_cons,eraseFrame,AsyncFast.semWait,view]
      cases f.chan.sem.wait with
      | none => rfl
      | some sem =>
        have hgoto := view_goto f i ((if yields=true then .looping else .passed)::rest)
        have htop : eraseFrame (if yields=true then .looping else .passed : Frame α)=
            if yields=true then .looping else .passed := by split <;> rfl
        rw [List.map_cons,htop] at hgoto
        exact congrArg (fun v => some {v with chan := ⟨[],sem⟩}) hgoto.symm
  | testCount i =>
    simp only [FastThreads.next,view_stack]
    rcases f.stack i with _|⟨g,rest⟩
    · rfl
    · cases g <;> try rfl
      change (if f.chan.size=0 then _ else _)=_
      split
      · rfl
      · rw [Option.map_some,view_goto,List.map_cons]
        rfl
  | handOver i =>
    simp only [FastThreads.next,view_stack]
    rcases f.stack i with _|⟨g,rest⟩
    · rfl
    · cases g <;> try rfl
      rename_i t
      simp only [List.map_cons,eraseFrame,List.length_map]
      exact congrArg (fun v => some {v with
        handed := ⟨i,rest.length,erase t⟩::(view f).handed})
        (view_goto f i (.dispatching t::rest)).symm
  | returns i | throws i =>
    simp only [FastThreads.next,view_stack]
    rcases f.stack i with _|⟨g,rest⟩
    · rfl
    · cases g <;> try rfl
      exact congrArg some (view_goto f i rest).symm

/-- A step outside the queue leaves the plain store. -/
theorem queue_of_outside {f f' : FastThreads.State ι α} {a : FastThreads.Act ι α}
    (ha : outside a=true) (h : FastThreads.next f a=some f') : f'.chan.queue=f.chan.queue := by
  cases FastThreads.next_effect h with
  | enqueue | waitDequeue => cases ha
  | notify | stays | calls | turns | leaves | loopEnds | handOver => rfl
  | semWait i yields g rest chan _ _ hw => exact (semWait_eq_some hw).1

end View

section Elements

variable [Fintype ι] {s q : BlockingQueue.State ι α} {p : ι} {u : SubqueueClaims.State ι α}

/-- All elements published so far. -/
def stored (s : BlockingQueue.State ι α) : Multiset α :=
  total (fun _ (u : SubqueueClaims.State ι α) => ((u.written.take u.tail : List α) : Multiset α))
    s.inner

/-- All elements moved out so far. -/
def moved (s : BlockingQueue.State ι α) : Multiset α :=
  total (fun _ (u : SubqueueClaims.State ι α) =>
    ((u.delivered.map SubqueueClaims.Receipt.element : List α) : Multiset α)) s.inner

/-- Whatever was moved out was published. -/
theorem moved_le_stored [DecidableEq ι] {spins w block : ℕ} (hw : 0 < w) (hblock : 0 < block)
    (hfits : block ≤ half w) (h : BlockingQueue.Whole spins w block s) : moved s ≤ stored s := by
  refine Finset.sum_le_sum fun p _ => ?_
  obtain ⟨acts,hacts⟩ := h.inner p
  obtain ⟨⟨fate,hbooked⟩,-⟩ := SubqueueClaims.invariants_of_reaches hw hblock hfits hacts
  have hle := hbooked.head_add_claims_le
  refine hbooked.delivered_le.trans (Multiset.coe_le.mpr (List.Sublist.subperm ?_))
  exact List.take_sublist_take_left (by omega)

/-- How many they are. -/
theorem card_elements [DecidableEq ι] {spins w block : ℕ} (hw : 0 < w) (hblock : 0 < block)
    (hfits : block ≤ half w) (h : BlockingQueue.Whole spins w block s) :
    (Multiset.card (stored s) : ℤ)=BlockingQueue.published s ∧
      (Multiset.card (moved s) : ℤ)=BlockingQueue.movedOut s := by
  have htail : ∀ p,(s.inner p).tail ≤ (s.inner p).written.length := by
    intro p
    obtain ⟨acts,hacts⟩ := h.inner p
    obtain ⟨⟨fate,hbooked⟩,-⟩ := SubqueueClaims.invariants_of_reaches hw hblock hfits hacts
    exact hbooked.published
  unfold stored moved BlockingQueue.published BlockingQueue.movedOut total
  rw [Multiset.card_sum,Multiset.card_sum,Nat.cast_sum,Nat.cast_sum]
  constructor
  · refine Finset.sum_congr rfl fun p _ => ?_
    rw [Multiset.coe_card,List.length_take,min_eq_left (htail p)]
  · refine Finset.sum_congr rfl fun p _ => ?_
    rw [Multiset.coe_card,List.length_map]

variable [DecidableEq ι]

/-- One sub-queue publishes some elements and others are moved out of it. -/
theorem elements_update (hinner : q.inner=Function.update s.inner p u) {x y : Multiset α}
    (hstored : ((u.written.take u.tail : List α) : Multiset α)=
      ((s.inner p).written.take (s.inner p).tail : List α)+x)
    (hmoved : ((u.delivered.map SubqueueClaims.Receipt.element : List α) : Multiset α)=
      ((s.inner p).delivered.map SubqueueClaims.Receipt.element : List α)+y) :
    stored q=stored s+x ∧ moved q=moved s+y := by
  unfold stored moved
  rw [hinner]
  exact ⟨@total_gain _ _ _ _ _ _ _ s.inner p u x hstored,
    @total_gain _ _ _ _ _ _ _ s.inner p u y hmoved⟩

/-- A step in one sub-queue which publishes nothing and moves nothing out. -/
theorem elements_same (hinner : q.inner=Function.update s.inner p u)
    (htake : u.written.take u.tail=(s.inner p).written.take (s.inner p).tail)
    (hdelivered : u.delivered=(s.inner p).delivered) : stored q=stored s ∧ moved q=moved s := by
  have hsame := elements_update hinner (x := 0) (y := 0) (by rw [htake,add_zero])
    (by rw [hdelivered,add_zero])
  rwa [add_zero,add_zero] at hsame

/-- So does every step between the calls of the channel. -/
theorem elements_works {spins w block : ℕ} {a : BlockingQueue.Act ι α} (ha : between a=true)
    (hn : BlockingQueue.next spins w block s a=some q) : stored q=stored s ∧ moved q=moved s := by
  cases BlockingQueue.next_effect hn with
  | enqueues | requests | stores | publishes | fails | dequeues => cases ha
  | walks | signals | asks | gives | takes | gets => exact ⟨rfl,rfl⟩
  | enters a r need search search' p u _ _ _ _ hu =>
    simp only [SubqueueClaims.next] at hu
    split_ifs at hu
    cases hu
    exact elements_same rfl rfl rfl

/-- Constructing an element publishes nothing. -/
theorem elements_stores {spins w block : ℕ} {i : ι} {b : SubqueueClaims.Act ι α}
    (hpublished : (s.inner i).tail ≤ (s.inner i).written.length)
    (hn : BlockingQueue.next spins w block s (.store i b)=some q) :
    stored q=stored s ∧ moved q=moved s := by
  cases BlockingQueue.next_effect hn with
  | walks _ _ _ _ _ hseeks => cases hseeks
  | enters _ _ _ _ _ _ _ hseeks => cases hseeks
  | stores i b u _ hstores hu =>
    obtain ⟨-,hdelivered,htail⟩ := BlockingQueue.stores_spec hstores hu
    refine elements_same rfl ?_ hdelivered
    cases SubqueueClaims.next_effect hu with
    | constructs x => exact List.take_append_of_le_length hpublished
    | reserves | refused | moves => rfl
    | publishes | abandons | counts | settles | refunds | claims | takes => cases hstores

end Elements

section Simulation

variable [Fintype ι] [DecidableEq ι]

/-- A channel over its queue and one with the plain store, in the same state. -/
structure Matches (s : State ι α) (f : FastThreads.State ι α) : Prop where
  /-- Count, calls and histories are the same. -/
  seen : s.fast=view f
  /-- In the store is what is published and not moved out. -/
  stored : (f.chan.queue.map Tuple.data : Multiset α)+moved s.queue=stored s.queue
  /-- The plain store lacks a tuple for every failed `enqueue`. -/
  counted : f.chan.queue.length+s.failed=f.chan.sem.len+producers f+consumers f

omit [DecidableEq ι] in
/-- Two new channels. -/
theorem matches_start : Matches (.start : State ι α) .start := by
  refine ⟨rfl,?_,accounted_start.matched⟩
  have hstored : stored (.start : BlockingQueue.State ι α)=0 := total_eq_zero _ _ fun _ => rfl
  have hmoved : moved (.start : BlockingQueue.State ι α)=0 := total_eq_zero _ _ fun _ => rfl
  change (0 : Multiset α)+moved (.start : BlockingQueue.State ι α)=
    stored (.start : BlockingQueue.State ι α)
  rw [hstored,hmoved]
  rfl

variable {spins w block : ℕ} {s : State ι α} {f : FastThreads.State ι α} {i : ι}
  {q : BlockingQueue.State ι α}

omit [DecidableEq ι] in
/-- Nothing happens in the plain store. -/
theorem Matches.stutter (h : Matches s f) (storing : ι → Option α)
    (hsame : FastOverQueue.stored q=FastOverQueue.stored s.queue ∧ moved q=moved s.queue) :
    Matches {s with queue := q,storing := storing} f := by
  refine ⟨h.seen,?_,h.counted⟩
  change _+moved q=FastOverQueue.stored q
  rw [hsame.1,hsame.2]
  exact h.stored

/-- A tuple is published. -/
theorem Matches.publish (h : Matches s f) {data : α} (hmay : mayCall (s.fast.stack i)=true)
    (hstored : FastOverQueue.stored q=FastOverQueue.stored s.queue+{data})
    (hmoved : moved q=moved s.queue) :
    ∃ f',FastFailure.next f (.step (.enqueue i data))=some f' ∧
      Matches (s.published i data q) f' := by
  rw [h.seen,view_stack,mayCall_erase] at hmay
  have hnext : FastThreads.next f (.enqueue i data)=some {f.goto i (.notifying::f.stack i) with
      chan := f.chan.enqueue ⟨f.tickets,data⟩
      tickets := f.tickets+1
      sent := ⟨f.tickets,data⟩::f.sent} := by
    simp only [FastThreads.next,FastThreads.State.call,if_pos hmay,Option.map_some]
  refine ⟨_,hnext,?_,?_,surplus_step h.counted hnext⟩
  · have hgoto := view_goto f i (.notifying::f.stack i)
    simp only [State.published,h.seen]
    exact congrArg (fun v => {v with sent := ⟨0,data⟩::(view f).sent}) hgoto.symm
  · change (((f.chan.queue++[_]).map Tuple.data : List α) : Multiset α)+moved q=
      FastOverQueue.stored q
    rw [hstored,hmoved,←h.stored,List.map_append,←Multiset.coe_add,add_right_comm]
    rfl

/-- An `enqueue` fails. -/
theorem Matches.fail (h : Matches s f) (data : α) (hmay : mayCall (s.fast.stack i)=true)
    (hsame : FastOverQueue.stored q=FastOverQueue.stored s.queue ∧ moved q=moved s.queue) :
    ∃ f',FastFailure.next f (.enqueueFails i data)=some f' ∧ Matches (s.unstored i q) f' := by
  rw [h.seen,view_stack,mayCall_erase] at hmay
  have hcounts := counts_push f i .notifying
  simp only [Frame.producing,Frame.consuming] at hcounts
  have hcounted := h.counted
  refine ⟨f.goto i (.notifying::f.stack i),if_pos hmay,?_,?_,?_⟩
  · simp only [State.unstored,h.seen]
    exact (view_goto f i (.notifying::f.stack i)).symm
  · change _+moved q=FastOverQueue.stored q
    rw [hsame.1,hsame.2]
    exact h.stored
  · change f.chan.queue.length+(s.failed+1)=f.chan.sem.len+_+_
    omega

/-- A tuple is moved out. -/
theorem Matches.take (h : Matches s f) {rest : List (Frame α)} {data : α}
    (htop : s.fast.stack i=.passed::rest)
    (hstored : FastOverQueue.stored q=FastOverQueue.stored s.queue)
    (hmoved : moved q=moved s.queue+{data}) (hle : moved q ≤ FastOverQueue.stored q) :
    ∃ position f',FastFailure.next f (.step (.waitDequeue i position))=some f' ∧
      Matches (s.taken i rest data q) f' := by
  have hmem : data∈(f.chan.queue.map Tuple.data : Multiset α) := by
    rw [hstored,hmoved,←h.stored,add_comm (moved s.queue),add_le_add_iff_right] at hle
    exact Multiset.singleton_le.mp hle
  obtain ⟨t,ht,rfl⟩ := List.mem_map.mp (Multiset.mem_coe.mp hmem)
  obtain ⟨position,hlt,rfl⟩ := List.mem_iff_getElem.mp ht
  rw [h.seen,view_stack] at htop
  obtain ⟨rest,hpassed,rfl⟩ := stack_of_view htop
  have hnext : FastThreads.next f (.waitDequeue i position)=
      some {f.goto i (.taken f.chan.queue[position]::rest) with
        chan := {f.chan with queue := f.chan.queue.eraseIdx position}
        taken := ⟨i,rest.length,f.chan.queue[position]⟩::f.taken} := by
    simp only [FastThreads.next,hpassed,AsyncFast.waitDequeue,List.getElem?_eq_getElem hlt,
      Option.map_some]
  refine ⟨position,_,hnext,?_,?_,surplus_step h.counted hnext⟩
  · have hgoto := view_goto f i (.taken f.chan.queue[position]::rest)
    simp only [State.taken,h.seen,List.length_map]
    exact congrArg (fun v => {v with
      taken := ⟨i,rest.length,erase f.chan.queue[position]⟩::(view f).taken}) hgoto.symm
  · have hperm := ((List.getElem_cons_eraseIdx_perm hlt).map Tuple.data).symm
    have hqueue := Multiset.coe_eq_coe.mpr hperm
    rw [List.map_cons,←Multiset.cons_coe] at hqueue
    change (((f.chan.queue.eraseIdx position).map Tuple.data : List α) : Multiset α)+moved q=
      FastOverQueue.stored q
    rw [hstored,hmoved,←h.stored,hqueue,←Multiset.singleton_add]
    ac_rfl

variable [DecidableEq α] {s' : State ι α} {a : Act ι α}

/-- Every step of the channel over its queue is a step of the one with the plain
store, or nothing happens there. -/
theorem matches_step (hcard : Fintype.card ι < 2147483648) (hw : 0 < w) (hblock : 0 < block)
    (hfits : block ≤ half w) (hinv : Inv spins w block s) (h : Matches s f)
    (htimely : Timely w s a) (hn : next spins w block s a=some s') :
    Matches s' f ∨ ∃ a' f',FastFailure.next f a'=some f' ∧ Matches s' f' := by
  have hinv' := inv_step hcard hw hblock hfits hinv htimely hn
  cases next_effect hn with
  | sends i data q hmay hq =>
    refine .inl (h.stutter _ ?_)
    cases BlockingQueue.next_effect hq with
    | walks | enqueues => exact ⟨rfl,rfl⟩
    | enters _ _ _ _ _ _ _ hseeks => cases hseeks
  | requests i rest q htop hq =>
    refine .inl (h.stutter _ ?_)
    cases BlockingQueue.next_effect hq with
    | walks | requests => exact ⟨rfl,rfl⟩
    | enters _ _ _ _ _ _ _ hseeks => cases hseeks
  | stores i data b q hdata hb hq =>
    obtain ⟨acts,hacts⟩ := hinv.whole.inner i
    obtain ⟨⟨fate,hbooked⟩,-⟩ := SubqueueClaims.invariants_of_reaches hw hblock hfits hacts
    exact .inl (h.stutter _ (elements_stores hbooked.published hq))
  | publishes i data q hdata hone hq =>
    obtain ⟨-,hmay,u,hinner,htake,hdelivered⟩ := publish_spec (hinv.fit i) hdata hone hq
    obtain ⟨hstored,hmoved⟩ := elements_update hinner (x := {data}) (y := 0)
      (by rw [htake]; rfl) (by rw [hdelivered,add_zero])
    rw [add_zero] at hmoved
    exact .inr ⟨_,h.publish hmay hstored hmoved⟩
  | fails i data q hdata hq =>
    obtain ⟨acts,hacts⟩ := hinv.whole.inner i
    obtain ⟨⟨fate,hbooked⟩,-⟩ := SubqueueClaims.invariants_of_reaches hw hblock hfits hacts
    obtain ⟨-,hmay,u,hinner,htake,hdelivered⟩ := fail_spec (hinv.fit i) hbooked.published hq
    exact .inr ⟨_,h.fail data hmay (elements_same hinner htake hdelivered)⟩
  | dequeues i b q hq =>
    have hwhole' := BlockingQueue.whole_step hcard hw hblock hfits hinv.whole htimely hq
    obtain ⟨rest,p,u,htop,hplace,-,-,hinner,hwritten,htail,hend⟩ :=
      dequeue_spec hw hblock hfits (hinv.fit i) hinv.whole hwhole' hq
    rcases hend with ⟨hidle,r,hdelivered,heq⟩|⟨-,hdelivered,heq⟩
    · obtain ⟨hstored,hmoved⟩ := elements_update hinner (x := 0) (y := {r.element})
        (by rw [hwritten,htail,add_zero])
        (by rw [hdelivered,List.map_cons,←Multiset.cons_coe,←Multiset.singleton_add,add_comm])
      rw [add_zero] at hstored
      obtain ⟨position,hmatch⟩ := h.take htop hstored hmoved
        (moved_le_stored hw hblock hfits hwhole')
      rw [heq]
      exact .inr ⟨_,hmatch⟩
    · rw [heq]
      exact .inl (h.stutter _ (elements_same hinner (by rw [hwritten,htail]) hdelivered))
  | works b q hb hq => exact .inl (h.stutter _ (elements_works hb hq))
  | moves b g hb hidle hg =>
    rw [h.seen,next_view f hb] at hg
    obtain ⟨f',hf',rfl⟩ := Option.map_eq_some_iff.mp hg
    refine .inr ⟨.step b,f',hf',rfl,?_,surplus_step h.counted hf'⟩
    rw [queue_of_outside hb hf']
    exact h.stored

/-- Every run has a matching one, and the invariant holds at its end. -/
theorem matches_of_reaches {acts : List (Act ι α)} (hcard : Fintype.card ι < 2147483648)
    (hw : 0 < w) (hblock : 0 < block) (hfits : block ≤ half w)
    (h : Reaches (next spins w block) (Timely w) .start acts s) :
    ∃ acts' f,Reaches FastFailure.next Unrestricted .start acts' f ∧ Inv spins w block s ∧
      Matches s f := by
  have hstep : ∀ {s : State ι α} {f : FastThreads.State ι α} {a : Act ι α} {s' : State ι α},
      Inv spins w block s ∧ Matches s f → Timely w s a → next spins w block s a=some s' →
      (Inv spins w block s' ∧ Matches s' f) ∨
        ∃ a' f',FastFailure.next f a'=some f' ∧ Inv spins w block s' ∧ Matches s' f' := by
    intro s f a s' ⟨hinv,hmatch⟩ htimely hn
    have hinv' := inv_step hcard hw hblock hfits hinv htimely hn
    rcases matches_step hcard hw hblock hfits hinv hmatch htimely hn with hstay|⟨a',f',hf',hmove⟩
    · exact .inl ⟨hinv',hstay⟩
    · exact .inr ⟨a',f',hf',hinv',hmove⟩
  exact h.simulated (R := fun s f => Inv spins w block s ∧ Matches s f)
    ⟨inv_start,matches_start⟩ hstep

/-- Every run of a channel over its real queue, of fewer than `2^31` threads of which
none decides on values older than half the range of a word, is matched by a run of
the channel with the plain store: same count, same calls on every stack, same histories of
tuples sent, taken and handed over, and as many failed sends. In the plain store
is at every time what is published in the sub-queues and not moved out. -/
theorem plain_store_matches {acts : List (Act ι α)} (hcard : Fintype.card ι < 2147483648)
    (hw : 0 < w) (hblock : 0 < block) (hfits : block ≤ half w)
    (h : Reaches (next spins w block) (Timely w) .start acts s) :
    ∃ acts' f,Reaches FastFailure.next Unrestricted .start acts' f ∧ s.fast=view f ∧
      FastFailure.failures acts'=s.failed ∧
      (f.chan.queue.map Tuple.data : Multiset α)+moved s.queue=FastOverQueue.stored s.queue := by
  obtain ⟨acts',f,hrun,-,hmatch⟩ := matches_of_reaches hcard hw hblock hfits h
  have hcounted := hmatch.counted
  have hfailures := FastFailure.counted_of_reaches hrun
  exact ⟨acts',f,hrun,hmatch.seen,by omega,hmatch.stored⟩

end Simulation

section Sleeping

variable [Fintype ι] {spins w block : ℕ} {s : State ι α} {f : FastThreads.State ι α}

/-- Calls between the counters are seen as such. -/
theorem counters_view (f : FastThreads.State ι α) :
    producers (view f)=producers f ∧ consumers (view f)=consumers f := by
  have hweight : ∀ (count : Frame α → ℕ),(∀ g,count (eraseFrame g)=count g) → ∀ st,
      stackWeight (fun _ g => count g) (st.map eraseFrame)=stackWeight (fun _ g => count g) st := by
    intro count hcount st
    induction st with
    | nil => rfl
    | cons g rest ih => rw [List.map_cons,stackWeight,stackWeight,ih,hcount]
  constructor
  · exact Finset.sum_congr rfl fun i _ => hweight Frame.producing (fun g => by cases g <;> rfl) _
  · exact Finset.sum_congr rfl fun i _ => hweight Frame.consuming (fun g => by cases g <;> rfl) _

/-- What a thread's calls between the counters of the channel have left in the
counters of the queue. -/
def slack (s : State ι α) (i : ι) : ℤ :=
  ((stackWeight (fun _ g => Frame.producing g) (s.fast.stack i) : ℕ) : ℤ)+
    ((stackWeight (fun _ g => Frame.consuming g) (s.fast.stack i) : ℕ) : ℤ)-
    (s.queue.control i).unsaid-(s.queue.sema.phase i).unsaid-(s.queue.control i).need

/-- A consumer of the channel has one unit at most, and does not hold it. -/
theorem gained_eq_zero {y : LightweightSemaphore.Phase} (hvalid : y.Valid)
    (hcall : y.call=some (.wait (-1))) : y.gained=0 := by
  cases y with
  | trying c got limit | tried c got limit old =>
    cases hcall
    have hlimit : ¬(1 : ℤ) < (LightweightSemaphore.Call.wait (-1)).limit := lt_irrefl 1
    exact (hvalid.2.resolve_right fun hr => hlimit hr.2.1).1
  | _ => rfl

/-- A thread leaves nothing missing, and one unit for itself while it takes. -/
theorem slack_spec [DecidableEq ι] (hmatched : BlockingQueue.Matched s.queue)
    (hvalid : ∀ i,(s.queue.sema.phase i).Valid) {i : ι} (hi : s.Fit i) :
    0 ≤ slack s i ∧ ((s.queue.sema.phase i).takes=true → 1 ≤ slack s i) ∧
      (s.queue.sema.phase i).gained=0 := by
  have hagrees := hmatched.agrees i
  have hv := hvalid i
  unfold State.Fit at hi
  unfold slack
  generalize s.queue.sema.phase i=y at hi hagrees hv ⊢
  generalize s.fast.stack i=st at hi ⊢
  cases hcontrol : s.queue.control i with
  | idle | storing =>
    rw [hcontrol] at hagrees
    cases hagrees
    simp only [BlockingQueue.Control.unsaid,BlockingQueue.Control.need,
      LightweightSemaphore.Phase.unsaid]
    exact ⟨by omega,fun htakes => Bool.noConfusion htakes,rfl⟩
  | stored count =>
    rw [hcontrol] at hagrees hi
    obtain ⟨-,-,⟨rest,rfl⟩,rfl⟩ := hi
    cases hagrees
    simp only [BlockingQueue.Control.unsaid,BlockingQueue.Control.need,
      LightweightSemaphore.Phase.unsaid,stackWeight,Frame.producing]
    exact ⟨by omega,fun htakes => Bool.noConfusion htakes,rfl⟩
  | signalling =>
    rw [hcontrol] at hagrees hi
    obtain ⟨-,-,⟨rest,rfl⟩,hunsaid⟩ := hi
    simp only [BlockingQueue.Control.unsaid,BlockingQueue.Control.need,stackWeight,Frame.producing]
    refine ⟨by omega,fun htakes => absurd htakes (BlockingQueue.not_takes_of_gives hagrees),?_⟩
    cases y <;> first | rfl | cases hagrees
  | asking r =>
    rw [hcontrol] at hagrees
    cases hagrees
    simp only [BlockingQueue.Control.unsaid,BlockingQueue.Control.need,
      LightweightSemaphore.Phase.unsaid]
    exact ⟨by omega,fun htakes => Bool.noConfusion htakes,rfl⟩
  | acquiring r =>
    rw [hcontrol] at hagrees hi
    obtain ⟨-,-,⟨rest,rfl⟩,-,hcall⟩ := hi
    rw [BlockingQueue.unsaid_of_takes hagrees]
    simp only [BlockingQueue.Control.unsaid,BlockingQueue.Control.need,stackWeight,Frame.producing,
      Frame.consuming]
    exact ⟨by omega,fun _ => by omega,gained_eq_zero hv hcall⟩
  | searching r need search =>
    rw [hcontrol] at hagrees hi
    obtain ⟨-,-,⟨rest,rfl⟩,-,rfl⟩ := hi
    cases hagrees
    simp only [BlockingQueue.Control.unsaid,BlockingQueue.Control.need,
      LightweightSemaphore.Phase.unsaid,stackWeight,Frame.producing,Frame.consuming]
    exact ⟨by omega,fun htakes => Bool.noConfusion htakes,rfl⟩

/-- While nobody sleeps and no `enqueue` has failed, the count of the queue's
semaphore is what the threads between the counters leave of it. -/
theorem count_eq_slack [DecidableEq ι] (hcard : Fintype.card ι < 2147483648) (hw : 0 < w)
    (hblock : 0 < block) (hfits : block ≤ half w) (hinv : Inv spins w block s) (h : Matches s f)
    (hnone : s.failed=0) (hawake : LightweightSemaphore.asleep s.queue.sema=0) :
    s.queue.sema.count+BlockingQueue.unsaid s.queue+BlockingQueue.needs s.queue=
        s.fast.chan.sem.len+producers s.fast+consumers s.fast ∧
      s.queue.sema.count=s.fast.chan.sem.len+∑ i,slack s i ∧
      ∀ i,0 ≤ slack s i ∧ ((s.queue.sema.phase i).takes=true → 1 ≤ slack s i) := by
  obtain ⟨acts,hacts⟩ := hinv.whole.sema
  have hsound := LightweightSemaphore.sound_of_reaches hcard le_rfl hacts
  have hmatched := hinv.whole.matched
  have hslack := fun i => slack_spec hmatched hsound.phases (hinv.fit i)
  have hgained : LightweightSemaphore.gained s.queue.sema=0 :=
    total_eq_zero _ _ fun i => (hslack i).2.2
  have hlength : (f.chan.queue.length : ℤ)+BlockingQueue.movedOut s.queue=
      BlockingQueue.published s.queue := by
    obtain ⟨hstored,hmoved⟩ := card_elements hw hblock hfits hinv.whole
    rw [←hstored,←hmoved,←h.stored,Multiset.card_add,Multiset.coe_card,List.length_map,Nat.cast_add]
  obtain ⟨hproducers,hconsumers⟩ := counters_view f
  have hunits := hsound.units
  have hsignalled := hmatched.signalled
  have hacquired := hmatched.acquired
  have hcounted := h.counted
  have hlen : s.fast.chan.sem.len=f.chan.sem.len := by rw [h.seen]; rfl
  rw [←h.seen] at hproducers hconsumers
  have hcount : s.queue.sema.count+BlockingQueue.unsaid s.queue+BlockingQueue.needs s.queue=
      s.fast.chan.sem.len+producers s.fast+consumers s.fast := by omega
  refine ⟨hcount,?_,fun i => ⟨(hslack i).1,(hslack i).2.1⟩⟩
  have hsum : ∑ i,slack s i=producers s.fast+consumers s.fast-BlockingQueue.unsaid s.queue-
      BlockingQueue.needs s.queue := by
    unfold slack producers consumers stackTotal BlockingQueue.unsaid BlockingQueue.needs total
    rw [Nat.cast_sum,Nat.cast_sum,Finset.sum_sub_distrib,Finset.sum_sub_distrib,
      Finset.sum_sub_distrib,Finset.sum_add_distrib]
    dsimp only
    omega
  omega

/-- While no `enqueue` has failed, no step puts anybody to sleep. -/
theorem awake_step [DecidableEq ι] [DecidableEq α] {s' : State ι α} {a : Act ι α}
    (hcard : Fintype.card ι < 2147483648) (hw : 0 < w) (hblock : 0 < block) (hfits : block ≤ half w)
    (hinv : Inv spins w block s) (h : Matches s f) (hnone : s.failed=0)
    (hawake : LightweightSemaphore.asleep s.queue.sema=0) (hn : next spins w block s a=some s') :
    LightweightSemaphore.asleep s'.queue.sema=0 := by
  obtain ⟨-,hcount,hslack⟩ := count_eq_slack hcard hw hblock hfits hinv h hnone hawake
  rcases (next_queue hn).2 with hqueue|⟨b,hb⟩
  · rw [hqueue,hawake]
  · rcases BlockingQueue.next_sema hb with hsema|⟨c,hc⟩
    · rw [hsema,hawake]
    · have hle := LightweightSemaphore.asleep_step_le (fun htakes => ?_) hc
      · have hnonneg := LightweightSemaphore.asleep_nonneg s'.queue.sema
        omega
      · have hone := (hslack c.thread).2 htakes
        have hsingle := Finset.single_le_sum (f := slack s) (fun j _ => (hslack j).1)
          (Finset.mem_univ c.thread)
        omega

/-- As long as no `enqueue` has failed, no receive ever sleeps inside
`wait_dequeue`, in any interleaving of fewer than `2^31` threads of which none
decides on values older than half the range of a word: whoever has passed `_sem`
and asks the queue's own semaphore finds its count positive, and nothing is ever
posted. The two counts differ by exactly the calls between them. -/
theorem wait_dequeue_never_sleeps [DecidableEq ι] [DecidableEq α] {acts : List (Act ι α)}
    (hcard : Fintype.card ι < 2147483648) (hw : 0 < w) (hblock : 0 < block) (hfits : block ≤ half w)
    (h : Reaches (next spins w block) (Timely w) .start acts s) (hnone : s.failed=0) :
    (∀ i c,s.queue.sema.phase i≠.sleeping c) ∧ s.queue.sema.kernel=0 ∧
      (∀ i,(s.queue.sema.phase i).takes=true → 0 < s.queue.sema.count) ∧
      s.queue.sema.count+BlockingQueue.unsaid s.queue+BlockingQueue.needs s.queue=
        s.fast.chan.sem.len+producers s.fast+consumers s.fast := by
  have hrun : ∃ f,Inv spins w block s ∧ Matches s f ∧
      (s.failed=0 → LightweightSemaphore.asleep s.queue.sema=0) := by
    refine h.invariant (I := fun s => ∃ f,Inv spins w block s ∧ Matches s f ∧
      (s.failed=0 → LightweightSemaphore.asleep s.queue.sema=0))
      ⟨.start,inv_start,matches_start,fun _ => total_eq_zero _ _ fun _ => rfl⟩ ?_
    intro s a s' ⟨f,hinv,hmatch,hawake⟩ htimely hn
    have hinv' := inv_step hcard hw hblock hfits hinv htimely hn
    have hawake' : s'.failed=0 → LightweightSemaphore.asleep s'.queue.sema=0 := by
      intro hzero
      have hfailed : s.failed=0 := by
        have hle := (next_queue hn).1
        omega
      exact awake_step hcard hw hblock hfits hinv hmatch hfailed (hawake hfailed) hn
    rcases matches_step hcard hw hblock hfits hinv hmatch htimely hn with hstay|⟨a',f',-,hmove⟩
    · exact ⟨f,hinv',hstay,hawake'⟩
    · exact ⟨f',hinv',hmove,hawake'⟩
  obtain ⟨f,hinv,hmatch,hawake⟩ := hrun
  obtain ⟨hboth,hcount,hslack⟩ :=
    count_eq_slack hcard hw hblock hfits hinv hmatch hnone (hawake hnone)
  obtain ⟨acts',hacts'⟩ := hinv.whole.sema
  have hsound := LightweightSemaphore.sound_of_reaches hcard le_rfl hacts'
  have hwakes := hsound.wakes
  have howed := LightweightSemaphore.owed_nonneg s.queue.sema
  rw [hawake hnone] at hwakes
  unfold LightweightSemaphore.shortage at hwakes
  refine ⟨fun i c hi => ?_,by omega,fun i htakes => ?_,hboth⟩
  · have hone := LightweightSemaphore.one_le_asleep hi
    have hzero := hawake hnone
    omega
  · have hone := (hslack i).2 htakes
    have hsingle :=
      Finset.single_le_sum (f := slack s) (fun j _ => (hslack j).1) (Finset.mem_univ i)
    omega

end Sleeping

/-- Thread 0 sends a tuple while thread 1 is on its way to receive. Thread 1 has
only seen that the queue's semaphore is empty and goes on to subtract from it, as
a thread does before it sleeps; but there is a unit by then. Thread 0 begins
another send meanwhile. -/
def outdatedRun : List (Act (Fin 2) ℕ) :=
  [.fast (.get 1 false),.send 0 7,.queue (.store 0 (.reserve 0)),.queue (.store 0 (.construct 7)),
    .queue (.publish 0),.queue (.signal 0),.queue (.sema 0 (.add 0)),.fast (.notify 0),
    .fast (.semWait 1),.dequeue 1,.queue (.ask 1),.send 0 8,.queue (.sema 1 (.load 1 0)),
    .queue (.sema 1 (.declines 1)),.queue (.sema 1 (.load 1 0)),.queue (.sema 1 (.declines 1)),
    .queue (.store 0 (.construct 8)),.queue (.sema 1 (.subtract 1)),.queue (.look 1 0),
    .queue (.size 1 1 0),.queue (.choose 1),.queue (.inner 1 (.loadTail 1 1)),
    .queue (.inner 1 (.loadOvercommit 1 0)),.queue (.inner 1 (.test 1 0)),
    .queue (.inner 1 (.count 1)),
    .queue (.inner 1 (.settle 1 1)),.queue (.inner 1 (.claim 1)),.queue (.publish 0),
    .queue (.inner 1 (.take 1)),.fast (.handOver 1)]

/-- The run is matched: two tuples were sent, the first was handed over and the
second is in the plain store. -/
theorem plain_store_matches_outdated :
    ∃ s : State (Fin 2) ℕ,Reaches (next 1 3 2) (Timely 3) .start outdatedRun s ∧
      s.fast.sent=[⟨0,8⟩,⟨0,7⟩] ∧ s.fast.handed=[⟨1,0,⟨0,7⟩⟩] ∧
      ∃ acts' f,Reaches FastFailure.next Unrestricted .start acts' f ∧ s.fast=view f ∧
        FastFailure.failures acts'=s.failed ∧
        (f.chan.queue.map Tuple.data : Multiset ℕ)+moved s.queue=stored s.queue := by
  obtain ⟨s,hs,hseen⟩ := reaches_of_replay (next 1 3 2) (Timely 3) .start outdatedRun
    (fun s => (s.fast.sent,s.fast.handed)) ([⟨0,8⟩,⟨0,7⟩],[⟨1,0,⟨0,7⟩⟩]) (by decide +kernel)
  simp only [Prod.mk.injEq] at hseen
  exact ⟨s,hs,hseen.1,hseen.2,
    plain_store_matches (by decide) (by decide) (by decide) (by decide) hs⟩

/-- Nobody slept in it, and at the end both counts are as they should be. -/
theorem wait_dequeue_never_sleeps_outdated :
    ∃ s : State (Fin 2) ℕ,Reaches (next 1 3 2) (Timely 3) .start outdatedRun s ∧ s.failed=0 ∧
      s.fast.chan.sem.len=0 ∧ ∀ i c,s.queue.sema.phase i≠.sleeping c := by
  obtain ⟨s,hs,hseen⟩ := reaches_of_replay (next 1 3 2) (Timely 3) .start outdatedRun
    (fun s => (s.failed,s.fast.chan.sem.len)) (0,0) (by decide +kernel)
  simp only [Prod.mk.injEq] at hseen
  exact ⟨s,hs,hseen.1,hseen.2,
    (wait_dequeue_never_sleeps (by decide) (by decide) (by decide) (by decide) hs hseen.1).1⟩

end FastEventSystem.FastOverQueue
