import FastEventSystem.FastChannel
import FastEventSystem.FeedbackQueue
import FastEventSystem.ForwardRefinement

/-!
# A fast channel connected to itself

One thread sends to an `async_fast` and then receives from it. The list of its
`_output` holds, in any order, lambdas which send to the channel itself and
handlers which do not touch it. A dispatch walks the list with the local tuple
of the receive: it copies for all subscribers but the last and forwards to the
last. A self-connection takes its parameters by value and moves them into a
new tuple of the same queue, while the loop that called it goes on. The queue
is first in, first out, as the vendored one is for a single producer.
-/

namespace FastEventSystem.SelfConnected

open CountingSemaphore FastChannel FeedbackQueue MoveCells ForwardedArguments ForwardRefinement

variable {η α : Type*}

/-- A callable in the list of `_output`. -/
inductive Subscriber (η : Type*) where
  /-- The lambda of `connect(async_fast&)`, made for the channel itself. -/
  | self
  /-- A handler which does not touch the channel. -/
  | other (h : η)
  deriving DecidableEq

/-- How often the channel is connected to itself. -/
def selfCount (registered : List (Subscriber η)) : ℕ :=
  registered.countP fun
    | .self => true
    | .other _ => false

/-- The other handlers, in list order. -/
def others (registered : List (Subscriber η)) : List η :=
  registered.filterMap fun
    | .self => none
    | .other h => some h

/-- Self-connections of two lists in a row. -/
theorem selfCount_append (registered more : List (Subscriber η)) :
    selfCount (registered++more)=selfCount registered+selfCount more := List.countP_append

/-- Other handlers of two lists in a row. -/
theorem others_append (registered more : List (Subscriber η)) :
    others (registered++more)=others registered++others more := List.filterMap_append

/-- The objects of the thread, the channel and the history of calls. -/
structure State (η α : Type*) where
  /-- All objects. -/
  mem : Memory α
  /-- The channel; a tuple is the list of its elements. -/
  chan : AsyncFast (List (Option α))
  /-- Number of sends so far. -/
  tickets : ℕ
  /-- The values handed to `_output` by each receive, oldest first. -/
  dispatched : List (List (Option α))
  /-- The calls of other handlers with the values shown, oldest first. -/
  invoked : List (η×List (Option α))

/-- A freshly constructed channel. -/
def State.fresh : State η α := ⟨[],.fresh,0,[],[]⟩

/-- `async_fast::operator()`: `std::forward<Args>` makes an rvalue of every
argument, so all are moved into the tuple. -/
def State.operatorCall (s : State η α) (data : List Expr) : State η α :=
  let tuple := constructAll s.mem (data.map fun e => e.cast true)
  {s with
    mem := tuple.1
    chan := (s.chan.enqueue ⟨s.tickets,tuple.2.map (read tuple.1)⟩).notify
    tickets := s.tickets+1}

/-- Objects made for some values. -/
def objectsFor (mem : Memory α) (data : List (Option α)) : List Expr :=
  (List.range' mem.length data.length).map Expr.own

/-- The thread sends objects of its own. -/
def State.send (s : State η α) (data : List (Option α)) : State η α :=
  {s with mem := s.mem++data}.operatorCall (objectsFor s.mem data)

/-- How a subscriber takes its parameters. -/
def passing (byValue : η → Bool) : Subscriber η → Passing
  | .self => .value
  | .other h => if byValue h=true then .value else .constRef

/-- A subscriber runs with its parameters. -/
def State.invoke (s : State η α) (params : List Expr) : Subscriber η → State η α
  | .self => s.operatorCall params
  | .other h => {s with invoked := s.invoked++[(h,params.map fun e => read s.mem e.cell)]}

/-- The loop of `sync::operator()` over the rest of the list. -/
def State.output (byValue : η → Bool) (args : List Expr) :
    List (Subscriber η) → State η α → State η α
  | [],s => s
  | m::registered,s =>
    let made := iteration s.mem (passing byValue m) registered.isEmpty args
    State.output byValue args registered ({s with mem := made.1}.invoke made.2 m)

/-- `_get`: pass the semaphore, dequeue into a local tuple, dispatch its
elements as rvalues, and return it. -/
def State.get (byValue : η → Bool) (registered : List (Subscriber η)) (s : State η α) :
    Option (List (Option α)×State η α) :=
  (s.chan.semWait.bind fun c => c.waitDequeue 0).map fun r =>
    let args := (objectsFor s.mem r.1.data).map fun e => e.cast true
    let u := State.output byValue args registered {s with
      mem := s.mem++r.1.data
      chan := r.2
      dispatched := s.dispatched++[args.map fun e => read (s.mem++r.1.data) e.cell]}
    let result := returnMoved u.mem args
    (result.2.map fun e => read result.1 e.cell,{u with mem := result.1})

/-- Several receives in a row, with the tuples they return. -/
def State.gets (byValue : η → Bool) (registered : List (Subscriber η)) :
    ℕ → State η α → Option (List (List (Option α))×State η α)
  | 0,s => some ([],s)
  | n+1,s =>
    match s.get byValue registered with
    | none => none
    | some (v,s') => (State.gets byValue registered n s').map fun r => (v::r.1,r.2)

/-- The payloads of the stored tuples, oldest first. -/
def State.payloads (s : State η α) : List (List (Option α)) := s.chan.queue.map Tuple.data

/-- The count is the number of stored tuples. -/
def State.Settled (s : State η α) : Prop := s.chan.sem.len=s.chan.queue.length

/-- The count is the number of stored payloads. -/
theorem settled_iff (s : State η α) : s.Settled ↔ s.chan.sem.len=s.payloads.length := by
  rw [State.payloads,List.length_map]
  rfl

/-- What a part of a dispatch did: it stored the payload some number of times,
showed it to some handlers, and changed no older object. -/
structure Delivered (s u : State η α) (data : List (Option α)) (resent : ℕ)
    (handlers : List η) : Prop where
  /-- The stored tuples. -/
  payloads : u.payloads=s.payloads++List.replicate resent data
  /-- The count. -/
  count : u.chan.sem.len=s.chan.sem.len+resent
  /-- The calls of other handlers. -/
  invoked : u.invoked=s.invoked++handlers.map fun h => (h,data)
  /-- No receive of its own. -/
  dispatched : u.dispatched=s.dispatched
  /-- Older objects have their values. -/
  kept : ∀ c < s.mem.length,read u.mem c=read s.mem c
  /-- No object disappears. -/
  grows : s.mem.length ≤ u.mem.length

/-- One part after the other. -/
theorem Delivered.trans {s t u : State η α} {data : List (Option α)} {k l : ℕ}
    {hs hs' : List η} (h : Delivered s t data k hs) (h' : Delivered t u data l hs') :
    Delivered s u data (k+l) (hs++hs') where
  payloads := by
    rw [h'.payloads,h.payloads,List.append_assoc,List.replicate_append_replicate]
  count := by
    have hk := h.count
    have hl := h'.count
    omega
  invoked := by rw [h'.invoked,h.invoked,List.append_assoc,List.map_append]
  dispatched := h'.dispatched.trans h.dispatched
  kept c hc := (h'.kept c (hc.trans_le h.grows)).trans (h.kept c hc)
  grows := h.grows.trans h'.grows

/-- A dispatch keeps the count at the number of stored payloads. -/
theorem Delivered.settled {s u : State η α} {data : List (Option α)} {resent : ℕ}
    {handlers : List η} (h : Delivered s u data resent handlers) (hs : s.Settled) :
    u.Settled := by
  rw [settled_iff] at hs ⊢
  rw [h.count,h.payloads,List.length_append,List.length_replicate,hs]

/-- Sending own objects stores their values once. -/
theorem operatorCall_delivered {s : State η α} {mark : ℕ} {params : List Expr}
    (hmark : mark ≤ s.mem.length) (hcells : ∀ e∈params,e.cell < s.mem.length)
    (hown : ∀ e∈params,mark ≤ e.cell) (hapart : params.Pairwise fun e f => e.cell≠f.cell) :
    (s.operatorCall params).payloads=s.payloads++[params.map fun e => read s.mem e.cell] ∧
      (∀ c < mark,read (s.operatorCall params).mem c=read s.mem c) ∧
      s.mem.length ≤ (s.operatorCall params).mem.length := by
  have hcells' : ∀ e∈params.map fun e => e.cast true,e.cell < s.mem.length ∧ mark ≤ e.cell := by
    intro e he
    obtain ⟨d,hd,rfl⟩ := List.mem_map.mp he
    exact ⟨hcells d hd,hown d hd⟩
  have hmoves : (params.map fun e => e.cast true).Pairwise
      fun e f => e.moves=true → e.cell≠f.cell := by
    refine List.pairwise_map.mpr (hapart.imp ?_)
    intro e f hne _
    exact hne
  have hnew := map_read_constructAll (fun e he => (hcells' e he).1) hmoves
  refine ⟨?_,fun c hc => ?_,?_⟩
  · simp only [State.payloads,State.operatorCall,AsyncFast.enqueue,AsyncFast.notify,
      List.map_append,List.map_singleton,hnew,List.map_map]
    rfl
  · refine read_constructAll_old (by omega) fun e he _ => ?_
    have hcell := (hcells' e he).2
    omega
  · have hlen := constructAll_length s.mem (params.map fun e => e.cast true)
    simp only [State.operatorCall,hlen]
    omega

/-- The parameters of a called subscriber are const exactly when it takes references. -/
theorem const_of_handed {low : ℕ} {mem : Memory α} {p : Passing} {args : List Expr}
    {made : Memory α×List Expr} (h : Handed low mem p args made) {e : Expr} (he : e∈made.2) :
    e.const=decide (p=.constRef) := by
  have hview : view made.1 e∈made.2.map (view made.1) := List.mem_map_of_mem he
  rw [h.shows] at hview
  obtain ⟨d,-,hd⟩ := List.mem_map.mp hview
  exact (congrArg Copy.const hd).symm

/-- One iteration: a self-connection sends the payload again, another handler
is shown it, and the local tuple keeps it. -/
theorem invoke_delivered (byValue : η → Bool) (last : Bool) {s : State η α} {args : List Expr}
    {data : List (Option α)} (hargs : ∀ e∈args,e.cell < s.mem.length ∧ e.empties=false)
    (hdata : (args.map fun e => read s.mem e.cell)=data) (m : Subscriber η) :
    Delivered s
      ({s with mem := (iteration s.mem (passing byValue m) last args).1}.invoke
        (iteration s.mem (passing byValue m) last args).2 m) data
      (selfCount [m]) (others [m]) := by
  have hhanded := iteration_handed (passing byValue m) last hargs
  have hvalues := map_read_of_handed hhanded
  have hconst := fun e he => const_of_handed hhanded he (e := e)
  obtain ⟨hkept,-,mark,hmark,hle,howned⟩ := hhanded
  cases m with
  | other h =>
    refine ⟨(List.append_nil _).symm,rfl,?_,rfl,hkept,hmark.trans hle⟩
    simp only [State.invoke,hvalues,hdata]
    rfl
  | self =>
    have hfree : ∀ e∈(iteration s.mem .value last args).2,e.const=false := hconst
    have hapart : (iteration s.mem .value last args).2.Pairwise fun e f => e.cell≠f.cell := by
      refine howned.apart.imp_of_mem ?_
      intro e f he hf hne
      exact hne (hfree e he) (hfree f hf)
    obtain ⟨hpayloads,hbelow,hgrows⟩ := operatorCall_delivered
      (s := {s with mem := (iteration s.mem .value last args).1}) hle howned.below
      (fun e he => howned.own e he (hfree e he)) hapart
    refine ⟨?_,rfl,(List.append_nil _).symm,rfl,fun c hc => ?_,(hmark.trans hle).trans hgrows⟩
    · exact hpayloads.trans (congrArg (fun v => s.payloads++[v]) (hvalues.trans hdata))
    · exact (hbelow c (hc.trans_le hmark)).trans (hkept c hc)

/-- The whole loop: every self-connection sends the payload again and every
other handler is shown it once, wherever they stand in the list. -/
theorem output_delivered (byValue : η → Bool) {args : List Expr} {data : List (Option α)}
    (registered : List (Subscriber η)) {s : State η α}
    (hargs : ∀ e∈args,e.cell < s.mem.length ∧ e.empties=false)
    (hdata : (args.map fun e => read s.mem e.cell)=data) :
    Delivered s (State.output byValue args registered s) data (selfCount registered)
      (others registered) := by
  induction registered generalizing s with
  | nil =>
    exact ⟨(List.append_nil _).symm,rfl,(List.append_nil _).symm,rfl,fun _ _ => rfl,le_rfl⟩
  | cons m registered ih =>
    have hone := invoke_delivered byValue registered.isEmpty hargs hdata m
    have hrest := ih (s := {s with
        mem := (iteration s.mem (passing byValue m) registered.isEmpty args).1}.invoke
      (iteration s.mem (passing byValue m) registered.isEmpty args).2 m)
      (fun e he => ⟨(hargs e he).1.trans_le hone.grows,(hargs e he).2⟩)
      ((List.map_congr_left fun e he => hone.kept e.cell (hargs e he).1).trans hdata)
    have hcount : selfCount (m::registered)=selfCount [m]+selfCount registered :=
      selfCount_append [m] registered
    have hothers : others (m::registered)=others [m]++others registered :=
      others_append [m] registered
    rw [hcount,hothers]
    exact hone.trans hrest

/-- The elements of a new tuple are objects of their own with its values. -/
theorem objectsFor_values (mem : Memory α) (data : List (Option α)) :
    (objectsFor mem data).map (fun e => read (mem++data) e.cell)=data := by
  rw [objectsFor,List.map_map]
  exact map_read_range mem data

/-- They lie in a row after all older objects. -/
theorem mem_objectsFor {mem : Memory α} {data : List (Option α)} {e : Expr}
    (he : e∈objectsFor mem data) : mem.length ≤ e.cell ∧ e.cell < (mem++data).length := by
  obtain ⟨c,hc,rfl⟩ := List.mem_map.mp he
  rw [List.length_append]
  exact List.mem_range'_1.mp hc

/-- They are distinct. -/
theorem objectsFor_apart (mem : Memory α) (data : List (Option α)) :
    (objectsFor mem data).Pairwise fun e f => e.cell≠f.cell := by
  refine List.pairwise_map.mpr (List.Pairwise.imp ?_ List.pairwise_lt_range')
  intro c d hlt
  exact hlt.ne

/-- A send stores its payload at the end and raises the count. -/
theorem send_payloads (s : State η α) (data : List (Option α)) :
    (s.send data).payloads=s.payloads++[data] ∧ (s.send data).dispatched=s.dispatched ∧
      (s.send data).invoked=s.invoked ∧ (s.Settled → (s.send data).Settled) := by
  have hlen : s.mem.length ≤ (s.mem++data).length := by
    rw [List.length_append]
    exact Nat.le_add_right _ _
  obtain ⟨hpayloads,-,-⟩ := operatorCall_delivered (s := {s with mem := s.mem++data}) hlen
    (fun e he => (mem_objectsFor he).2) (fun e he => (mem_objectsFor he).1)
    (objectsFor_apart s.mem data)
  rw [objectsFor_values] at hpayloads
  have hsends : (s.send data).payloads=s.payloads++[data] := hpayloads
  refine ⟨hsends,rfl,rfl,fun hs => ?_⟩
  rw [settled_iff] at hs ⊢
  rw [hsends,List.length_append,List.length_singleton,←hs]
  rfl

/-- A settled channel with a tuple lets a receive take the oldest one. -/
theorem dequeue_of_settled {s : State η α} (hs : s.Settled) {t : Tuple (List (Option α))}
    {rest : List (Tuple (List (Option α)))} (hq : s.chan.queue=t::rest) :
    (s.chan.semWait.bind fun c => c.waitDequeue 0)=some (t,⟨rest,⟨rest.length⟩⟩) := by
  have hwait : s.chan.sem.wait=some ⟨rest.length⟩ := by
    refine Semaphore.wait_eq_some.mpr ?_
    rw [hs,hq]
    rfl
  simp only [AsyncFast.semWait,hwait,Option.map_some,Option.bind_some,AsyncFast.waitDequeue,hq,
    List.getElem?_cons_zero,List.eraseIdx_cons_zero]

/-- One receive takes the oldest payload, puts it back once for every
self-connection, shows it to every other handler and returns it. -/
theorem get_feed (byValue : η → Bool) (registered : List (Subscriber η)) {s : State η α}
    (hs : s.Settled) :
    (s.get byValue registered).map (fun r => (r.1,r.2.payloads))=
        feed (selfCount registered) s.payloads ∧
      ∀ r∈s.get byValue registered,r.2.Settled ∧ r.2.dispatched=s.dispatched++[r.1] ∧
        r.2.invoked=s.invoked++(others registered).map fun h => (h,r.1) := by
  cases hq : s.chan.queue with
  | nil =>
    have hblocked : s.chan.semWait=none := by
      have hzero : s.chan.sem.len=0 := by rw [hs,hq]; rfl
      rw [AsyncFast.semWait,Semaphore.wait,hzero]
      rfl
    have hpayloads : s.payloads=[] := by rw [State.payloads,hq]; rfl
    rw [State.get,hblocked,hpayloads]
    exact ⟨rfl,fun r hr => by cases hr⟩
  | cons t rest =>
    have hpayloads : s.payloads=t.data::rest.map Tuple.data := by rw [State.payloads,hq]; rfl
    rw [State.get,dequeue_of_settled hs hq,hpayloads,feed]
    -- The elements of the local tuple are new objects, which nobody else moves from.
    have hcells : ∀ e∈(objectsFor s.mem t.data).map fun e => e.cast true,
        s.mem.length ≤ e.cell ∧ e.cell < (s.mem++t.data).length ∧ e.empties=false := by
      intro e he
      obtain ⟨d,hd,rfl⟩ := List.mem_map.mp he
      have hd' := mem_objectsFor hd
      obtain ⟨c,-,rfl⟩ := List.mem_map.mp hd
      exact ⟨hd'.1,hd'.2,rfl⟩
    have hapart : ((objectsFor s.mem t.data).map fun e => e.cast true).Pairwise
        fun e f => e.cell≠f.cell := List.pairwise_map.mpr (objectsFor_apart s.mem t.data)
    have hdata : (((objectsFor s.mem t.data).map fun e => e.cast true).map
        fun e => read (s.mem++t.data) e.cell)=t.data := by
      rw [List.map_map]
      exact objectsFor_values s.mem t.data
    simp only [Option.map_some]
    generalize (objectsFor s.mem t.data).map (fun e => e.cast true)=args at hcells hapart hdata ⊢
    rw [hdata]
    have hout := output_delivered byValue registered (s := {s with
      mem := s.mem++t.data
      chan := ⟨rest,⟨rest.length⟩⟩
      dispatched := s.dispatched++[t.data]}) (fun e he => (hcells e he).2) hdata
    generalize State.output byValue args registered {s with
      mem := s.mem++t.data
      chan := ⟨rest,⟨rest.length⟩⟩
      dispatched := s.dispatched++[t.data]}=u at hout ⊢
    have hlow : s.mem.length ≤ u.mem.length := by
      have hgrows : (s.mem++t.data).length ≤ u.mem.length := hout.grows
      rw [List.length_append] at hgrows
      omega
    obtain ⟨-,-,-,hshows⟩ := returnMoved_handed hlow
      (fun e he => (hcells e he).2.1.trans_le hout.grows) (fun e he => (hcells e he).1) hapart
    have hresult : ((returnMoved u.mem args).2.map fun e =>
        read (returnMoved u.mem args).1 e.cell)=t.data := by
      have hvalues := congrArg (List.map Copy.value) hshows
      rw [List.map_map,List.map_map,List.map_map] at hvalues
      refine hvalues.trans (Eq.trans ?_ hdata)
      exact List.map_congr_left fun e he => hout.kept e.cell (hcells e he).2.1
    rw [hresult]
    refine ⟨?_,fun r hr => ?_⟩
    · exact congrArg (fun q => some (t.data,q)) hout.payloads
    · cases hr
      have hsettled : u.Settled := hout.settled rfl
      exact ⟨hsettled,hout.dispatched,hout.invoked⟩

/-- Receives in a row are takes from a queue fed by the self-connections. -/
theorem gets_feeds (byValue : η → Bool) (registered : List (Subscriber η)) (n : ℕ)
    {s : State η α} (hs : s.Settled) :
    (s.gets byValue registered n).map (fun r => (r.1,r.2.payloads))=
        feeds (selfCount registered) n s.payloads ∧
      ∀ r∈s.gets byValue registered n,r.2.Settled ∧ r.2.dispatched=s.dispatched++r.1 ∧
        r.2.invoked=s.invoked++r.1.flatMap fun v => (others registered).map fun h => (h,v) := by
  induction n generalizing s with
  | zero =>
    refine ⟨rfl,fun r hr => ?_⟩
    cases hr
    exact ⟨hs,(List.append_nil _).symm,(List.append_nil _).symm⟩
  | succ n ih =>
    obtain ⟨hfeed,hafter⟩ := get_feed byValue registered hs
    rw [State.gets,feeds,←hfeed]
    cases hget : s.get byValue registered with
    | none => exact ⟨rfl,fun r hr => by cases hr⟩
    | some r =>
      obtain ⟨hsettled,hdispatched,hinvoked⟩ := hafter r hget
      obtain ⟨hrest,hlater⟩ := ih hsettled
      simp only [Option.map_some]
      rw [←hrest,Option.map_map,Option.map_map]
      refine ⟨rfl,fun r' hr' => ?_⟩
      obtain ⟨u,hu,rfl⟩ := Option.map_eq_some_iff.mp hr'
      obtain ⟨hu',hdispatched',hinvoked'⟩ := hlater u hu
      refine ⟨hu',?_,?_⟩
      · rw [hdispatched',hdispatched,List.append_assoc]
        rfl
      · rw [hinvoked',hinvoked,List.append_assoc]
        rfl

/-- Sends in a row on a fresh channel. -/
def sent (sends : List (List (Option α))) : State η α := sends.foldl State.send .fresh

/-- After the sends the payloads are stored in their order. -/
theorem sent_payloads (sends : List (List (Option α))) :
    (sent sends : State η α).payloads=sends ∧ (sent sends : State η α).dispatched=[] ∧
      (sent sends : State η α).invoked=[] ∧ (sent sends : State η α).Settled := by
  induction sends using List.reverseRecOn with
  | nil => exact ⟨rfl,rfl,rfl,rfl⟩
  | append_singleton sends data ih =>
    obtain ⟨hpayloads,hdispatched,hinvoked,hsettled⟩ := ih
    have hlast : (sent (sends++[data]) : State η α)=(sent sends).send data := by
      rw [sent,List.foldl_append]
      rfl
    obtain ⟨hpayloads',hdispatched',hinvoked',hsettled'⟩ :=
      send_payloads (sent sends : State η α) data
    rw [hlast]
    exact ⟨hpayloads'.trans (congrArg (·++[data]) hpayloads),hdispatched'.trans hdispatched,
      hinvoked'.trans hinvoked,hsettled' hsettled⟩

/-- A self-connected channel. For every list of self-connections and other
handlers, in any order, after one or more sends and then any number of receives
by the same thread, at most as many as sends when there is no self-connection:
all receives complete; the size is the number of sends plus, for each receive,
the number of self-connections less one; every other handler is called once by
every receive, with the payload that receive returns and dispatches; and with
one self-connection these are the payloads of the sends in turn, round and
round. -/
theorem self_connected_receives (byValue : η → Bool) (registered : List (Subscriber η))
    {sends : List (List (Option α))} (hsends : sends≠[]) {n : ℕ}
    (hn : selfCount registered=0 → n ≤ sends.length) :
    ∃ returned s,State.gets byValue registered n (sent sends)=some (returned,s) ∧
      returned.length=n ∧ s.dispatched=returned ∧
      (s.chan.size : ℤ)=sends.length+n*((selfCount registered : ℤ)-1) ∧
      s.invoked=returned.flatMap (fun v => (others registered).map fun h => (h,v)) ∧
      s.invoked.map Prod.fst=(List.replicate n (others registered)).flatten ∧
      (selfCount registered=1 → ∀ i < n,returned[i]?=sends[i%sends.length]?) := by
  obtain ⟨hpayloads,hdispatched,hinvoked,hsettled⟩ := @sent_payloads η α sends
  obtain ⟨hfeeds,hafter⟩ := gets_feeds byValue registered n hsettled
  obtain ⟨returned,rest,hfed⟩ := exists_feeds hsends hn
  rw [hpayloads,hfed] at hfeeds
  obtain ⟨⟨returned',s⟩,hgets,hr⟩ := Option.map_eq_some_iff.mp hfeeds
  cases hr
  obtain ⟨hsettled',hdispatched',hinvoked'⟩ := hafter _ hgets
  obtain ⟨hlength,hsize⟩ := feeds_length hfed
  rw [hdispatched,List.nil_append] at hdispatched'
  rw [hinvoked,List.nil_append] at hinvoked'
  refine ⟨_,s,hgets,hlength,hdispatched',?_,hinvoked',?_,fun hone i hi => ?_⟩
  · have hcount : s.chan.size=s.payloads.length := (settled_iff s).mp hsettled'
    have hsize' : (s.payloads.length : ℤ)+n=sends.length+n*selfCount registered := by
      exact_mod_cast hsize
    rw [hcount,mul_sub,mul_one]
    omega
  · rw [hinvoked',List.map_flatMap,←hlength,←List.map_const',List.flatMap_def]
    refine congrArg List.flatten (List.map_congr_left fun v _ => ?_)
    rw [List.map_map]
    exact List.map_id _
  · rw [hone] at hfed
    exact feeds_one_getElem? hfed hi

/-- Two handlers around one self-connection; the second one takes its parameter
by value. -/
def autoConnected : List (Subscriber Bool) := [.other false,.self,.other true]

/-- Three receives after two sends return the payloads in turn, leave both in
the queue and call both handlers three times. -/
theorem self_connected_receives_two_sends :
    ∃ returned,∃ s : State Bool ℕ,
      State.gets id autoConnected 3 (sent [[some 7],[some 8]])=some (returned,s) ∧
      (s.chan.size : ℤ)=2+3*((selfCount autoConnected : ℤ)-1) ∧ s.chan.size=2 ∧
      returned=[[some 7],[some 8],[some 7]] ∧
      s.invoked.map Prod.fst=[false,true,false,true,false,true] := by
  obtain ⟨returned,s,hgets,-,-,hsize,-,hcalls,-⟩ :=
    @self_connected_receives Bool ℕ id autoConnected [[some 7],[some 8]] (List.cons_ne_nil _ _) 3
      (fun hnone => by cases hnone)
  have hseen : (State.gets id autoConnected 3 (sent [[some 7],[some 8]])).map
      (fun r => (r.1,r.2.chan.size))=some ([[some 7],[some 8],[some 7]],2) := by decide
  rw [hgets,Option.map_some,Option.some.injEq,Prod.mk.injEq] at hseen
  exact ⟨returned,s,hgets,hsize,hseen.2,hseen.1,hcalls⟩

end FastEventSystem.SelfConnected
