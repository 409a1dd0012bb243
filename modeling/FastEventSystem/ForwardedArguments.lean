import FastEventSystem.ChannelNetwork
import FastEventSystem.MoveCells

/-!
# Arguments on their way to the subscribers

An argument of `sync::operator()` passes through `method`, `std::function` and
the parameter list of a subscriber. The last iteration forwards it, the others
copy it. Here every argument is a cell which a move constructor empties, and
every layer hands on expressions with the value category the source gives them.
`operator()` takes arguments of any type: one whose type is not that in `Args`
is converted where `std::function` binds its const reference, and the
conversion of an rvalue is a move. A conversion keeps the value.

The code between two layers is free: a running handler makes variables of its
own, copies, moves and overwrites them, connects further subscribers, calls
other channels with its variables as lvalues or as rvalues, sends to and
receives from queues, returns or throws. The bridging lambdas have the bodies
of the source. What a handler cannot do is to change an object which is not
its own: it knows the others through const references only. Left out are sends
whose arguments have other types than the queue, since their tuple is built in
one step, conversions which throw, and disconnects during a dispatch.

The steps are written once for any way of keeping variables. `cells` is the
one of the code; in `copies` every variable is a value of its own, so every
subscriber gets its own copy of the arguments and nothing is shared.
-/

namespace FastEventSystem.ForwardedArguments

open MoveCells SyncRegistry
open ChannelNetwork (Chan)

/-- How a callable takes its parameters. -/
inductive Passing where
  /-- By const reference. -/
  | constRef
  /-- By value. -/
  | value
  deriving DecidableEq

variable {η S F D α μ ν : Type*}

/-- The target of a `std::function` makes its parameters from const references. -/
def invokeTarget (mem : Memory α) (refs : List Expr) : Passing → Memory α×List Expr
  | .constRef => (mem,refs)
  | .value =>
    let made := constructAll mem refs
    (made.1,made.2.map Expr.own)

/-- `std::function<void(const Args&...)>::operator()`: an argument of another
type than its `const Args&` is converted, and an rvalue is moved from for it. -/
def functionCall (mem : Memory α) (p : Passing) (args : List Expr) : Memory α×List Expr :=
  let refs := bindAll mem args
  invokeTarget refs.1 refs.2 p

/-- `method::operator()`: each argument is forwarded with its own category. -/
def methodCall (mem : Memory α) (p : Passing) (args : List Expr) : Memory α×List Expr :=
  functionCall mem p args

/-- `method::call_copy`: the parameters are objects of their own, of the types
of the arguments, and these are forwarded as rvalues. -/
def callCopy (mem : Memory α) (p : Passing) (args : List Expr) : Memory α×List Expr :=
  let data := constructAll mem args
  functionCall data.1 p ((data.2.zip args).map fun d =>
    {(Expr.own d.1).cast true with converts := d.2.converts})

/-- One iteration of `sync::operator()`. The last one forwards; in the others
the arguments are the names of the parameters. -/
def iteration (mem : Memory α) (p : Passing) (last : Bool) (args : List Expr) :
    Memory α×List Expr :=
  if last=true then methodCall mem p args else callCopy mem p (args.map Expr.named)

/-- `return std::move(t)`: the elements of the result, from those of the tuple. -/
def returnMoved (mem : Memory α) (t : List Expr) : Memory α×List Expr :=
  let made := constructAll mem t
  (made.1,made.2.map Expr.own)

/-- A way of keeping variables and handing them on. -/
structure Store (μ ν α : Type*) where
  /-- A new variable of the running code. -/
  create : μ → Option α → μ×ν
  /-- The value of a variable. -/
  read : μ → ν → Option α
  /-- Whether a variable is a const reference. -/
  const : ν → Bool
  /-- Overwrite a variable. -/
  write : μ → ν → Option α → μ×ν
  /-- A variable as an argument, cast to an rvalue or not, of another type than
  the parameter or not. -/
  argument : ν → Bool → Bool → ν
  /-- The parameters of the subscriber called in one iteration. -/
  call : μ → Passing → Bool → List ν → μ×List ν
  /-- The result of a receive from its local tuple. -/
  result : μ → List ν → μ×List ν

/-- Variables are cells of one memory, as in the code. -/
def cells : Store (Memory α) Expr α where
  create mem v := (mem++[v],Expr.own mem.length)
  read mem e := read mem e.cell
  const e := e.const
  write mem e v := (mem.set e.cell v,e)
  argument e moved converts := {e.cast moved with converts := converts}
  call := iteration
  result := returnMoved

section Cells

variable (mem : Memory α) (e : Expr) (v : Option α)

@[simp] theorem cells_create : cells.create mem v=(mem++[v],Expr.own mem.length) := rfl

@[simp] theorem cells_read : cells.read mem e=read mem e.cell := rfl

@[simp] theorem cells_write : cells.write mem e v=(mem.set e.cell v,e) := rfl

@[simp] theorem cells_argument (moved converts : Bool) :
    (cells : Store (Memory α) Expr α).argument e moved converts=
      {e.cast moved with converts := converts} := rfl

@[simp] theorem cells_call (p : Passing) (last : Bool) (args : List Expr) :
    cells.call mem p last args=iteration mem p last args := rfl

@[simp] theorem cells_result (t : List Expr) : cells.result mem t=returnMoved mem t := rfl

end Cells

/-- A variable which is a value of its own. -/
structure Copy (α : Type*) where
  /-- The value, if it was not moved away. -/
  value : Option α
  /-- Whether it may be changed. -/
  const : Bool
  deriving DecidableEq

/-- Every variable is a copy of its own, and every subscriber gets such copies. -/
def copies : Store Unit (Copy α) α where
  create _ v := ((),⟨v,false⟩)
  read _ x := x.value
  const x := x.const
  write _ x v := ((),{x with value := v})
  argument x _ _ := x
  call _ p _ args := ((),args.map fun x => ⟨x.value,decide (p=.constRef)⟩)
  result _ t := ((),t.map fun x => ⟨x.value,false⟩)

section Copies

variable (u : Unit) (x : Copy α) (v : Option α)

@[simp] theorem copies_create : copies.create u v=((),⟨v,false⟩) := rfl

@[simp] theorem copies_read : copies.read u x=x.value := rfl

@[simp] theorem copies_write : copies.write u x v=((),⟨v,x.const⟩) := rfl

@[simp] theorem copies_argument (moved converts : Bool) :
    (copies : Store Unit (Copy α) α).argument x moved converts=x := rfl

@[simp] theorem copies_call (p : Passing) (last : Bool) (args : List (Copy α)) :
    copies.call u p last args=((),args.map fun x => ⟨x.value,decide (p=.constRef)⟩) := rfl

@[simp] theorem copies_result (t : List (Copy α)) :
    copies.result u t=((),t.map fun x => ⟨x.value,false⟩) := rfl

end Copies

/-- New variables for several values. -/
def Store.createAll (st : Store μ ν α) : μ → List (Option α) → μ×List ν
  | mem,[] => (mem,[])
  | mem,v::vs =>
    let first := st.create mem v
    let others := st.createAll first.1 vs
    (others.1,first.2::others.2)

/-- Move the values out of variables, in their order. A const one does not
compile, since `std::forward<Args>` does not take it. -/
def Store.takeAll (st : Store μ ν α) :
    μ → List ν → List ℕ → Option (List (Option α)×μ×List ν)
  | mem,vars,[] => some ([],mem,vars)
  | mem,vars,n::ns =>
    match vars[n]? with
    | none => none
    | some x =>
      if st.const x=true then none
      else
        let written := st.write mem x none
        (st.takeAll written.1 (vars.set n written.2) ns).map fun r => (st.read mem x::r.1,r.2)

/-- An argument of `sync::operator()`. -/
structure Argument where
  /-- The number of the variable. -/
  number : ℕ
  /-- Whether it is passed with `std::move`. -/
  moved : Bool
  /-- Whether its type is another one than that in `Args`. -/
  converts : Bool
  deriving DecidableEq

/-- What running code can do. Variables are numbered, parameters first. -/
inductive Op (η S F D α : Type*) where
  /-- Make a variable. -/
  | create (v : α)
  /-- Construct a variable from another one, moved or not. -/
  | construct (n : ℕ) (moved : Bool)
  /-- Overwrite a variable. -/
  | assign (n : ℕ) (v : α)
  /-- Read a variable. -/
  | read (n : ℕ)
  /-- Connect a subscriber to a channel. -/
  | connect (c : Chan S F D) (m : Method η S F D)
  /-- Call a `sync` with variables. -/
  | call (s : S) (args : List Argument)
  /-- Send variables to a queue. -/
  | send (c : Chan S F D) (args : List ℕ)
  /-- Receive the tuple at a position of a queue. -/
  | get (c : Chan S F D) (position : ℕ)

/-- The arguments of a call. -/
def Op.arguments : Op η S F D α → List Argument
  | .call _ args => args
  | _ => []

/-- A stored tuple. -/
structure Entry (α : Type*) where
  /-- Its elements. -/
  data : List (Option α)
  /-- What was sent; a history. -/
  sent : List (Option α)
  /-- Whether a receive has moved the elements out; a history. -/
  taken : Bool
  deriving DecidableEq

/-- One level of the call stack. -/
inductive Level (ν η S F D α : Type*) where
  /-- Code with its variables; a fixed body is what a lambda still has to do. -/
  | code (vars : List ν) (body : Option (List (Op η S F D α)))
  /-- A loop of `operator()` at a position, with the values its arguments had
  at the call, a history, and the tuple it was received from, if any. -/
  | loop (c : Chan S F D) (it : ℕ) (args : List ν) (atCall : List (Option α))
      (source : Option (Entry α))

/-- A subscriber's call. -/
structure Shown (S F D α : Type*) where
  /-- The channel. -/
  chan : Chan S F D
  /-- Position of the subscriber. -/
  it : ℕ
  /-- The values of its parameters. -/
  seen : List (Option α)
  /-- The values of the arguments when `operator()` was called. -/
  atCall : List (Option α)
  deriving DecidableEq

/-- A receive which returned. -/
structure Receipt (S F D α : Type*) where
  /-- The channel. -/
  chan : Chan S F D
  /-- The stored tuple when it was dequeued. -/
  entry : Entry α
  /-- The elements of the returned tuple. -/
  result : List (Option α)
  deriving DecidableEq

/-- Variables, channels, calls and histories. -/
structure State (μ ν η S F D α : Type*) where
  /-- What the variables are kept in. -/
  mem : μ
  /-- The list of a `sync`, or of the `_output` of a queue. -/
  registered : Chan S F D → List (Method η S F D)
  /-- The stored tuples of a queue. -/
  queue : Chan S F D → List (Entry α)
  /-- The calls in progress, innermost first. -/
  stack : List (Level ν η S F D α)
  /-- History of subscribers' calls. -/
  shown : List (Shown S F D α)
  /-- History of reads. -/
  observed : List (Option α)
  /-- History of returned receives. -/
  returned : List (Receipt S F D α)

/-- Nothing is connected and the main program runs. -/
def State.start (mem : μ) : State μ ν η S F D α :=
  ⟨mem,fun _ => [],fun _ => [],[.code [] none],[],[],[]⟩

/-- How a subscriber in the list of a channel takes its parameters. The lambda
which calls a `sync` takes references in the list of a `sync` and values in the
list of a queue. -/
def passing (byValue : η → Bool) (c : Chan S F D) : Method η S F D → Passing
  | .functor f => if byValue f=true then .value else .constRef
  | .bind _ _ => .constRef
  | .sync _ =>
    match c with
    | .sync _ => .constRef
    | _ => .value
  | .fast _ => .value
  | .delay _ _ _ => .value

/-- The body of a subscriber in the list of a channel; handlers are free. -/
def body (c : Chan S F D) (params : ℕ) : Method η S F D → Option (List (Op η S F D α))
  | .functor _ => none
  | .bind _ _ => none
  | .sync callback =>
    match c with
    | .sync _ => some [.call callback ((List.range params).map fun n => ⟨n,false,false⟩)]
    | _ => some [.call callback ((List.range params).map fun n => ⟨n,true,false⟩)]
  | .fast queue => some [.send (.fast queue) (List.range params)]
  | .delay _ _ queue => some [.send (.delay queue) (List.range params)]

/-- The stored tuples once one was received. An `async_fast` removes it; an
`async_delay` keeps the emptied entry until its `pop_back`. -/
def received (c : Chan S F D) (position : ℕ) (e : Entry α) (queue : List (Entry α)) :
    List (Entry α) :=
  match c with
  | .delay _ => queue.set position {e with data := e.data.map fun _ => none,taken := true}
  | _ => queue.eraseIdx position

/-- The stored tuples after the dispatch: an `async_delay` pops the entry which
is then at the back. -/
def popped (c : Chan S F D) (back : ℕ) (queue : List (Entry α)) : List (Entry α) :=
  match c with
  | .delay _ => queue.eraseIdx back
  | _ => queue

/-- Only queues can be sent to and received from. -/
def isQueue : Chan S F D → Bool
  | .sync _ => false
  | _ => true

/-- The code has nothing left which it must do. -/
def finished : Option (List (Op η S F D α)) → Bool
  | none => true
  | some ops => ops.isEmpty

/-- One step. -/
inductive Act (η S F D α : Type*) where
  /-- Free code does something. -/
  | op (o : Op η S F D α)
  /-- A lambda does what comes next in its body. -/
  | go
  /-- A loop calls the subscriber at its position. -/
  | iterate
  /-- A loop is at the end; a receive pops, if it does, and returns. -/
  | leaves (back : ℕ)
  /-- A subscriber returns. -/
  | returns
  /-- A subscriber throws, and the exception leaves the loop or the receive. -/
  | throws

/-- The operation which a step performs. -/
def performing (s : State μ ν η S F D α) : Act η S F D α → Option (Op η S F D α)
  | .op o => some o
  | .go =>
    match s.stack with
    | .code _ (some (o::_))::_ => some o
    | _ => none
  | _ => none

/-- Every rvalue argument of an `operator()` has the type in `Args`. -/
def Typed (s : State μ ν η S F D α) (a : Act η S F D α) : Prop :=
  ∀ o∈performing s a,∀ b∈o.arguments,b.converts=true → b.moved=false

instance (s : State μ ν η S F D α) (a : Act η S F D α) : Decidable (Typed s a) :=
  inferInstanceAs (Decidable (∀ o∈performing s a,∀ b∈o.arguments,b.converts=true → b.moved=false))

variable [DecidableEq S] [DecidableEq F] [DecidableEq D]

/-- Running code does one thing. -/
def Store.perform (st : Store μ ν α) (s : State μ ν η S F D α) (vars : List ν)
    (todo : Option (List (Op η S F D α))) (rest : List (Level ν η S F D α)) :
    Op η S F D α → Option (State μ ν η S F D α)
  | .create v =>
    let made := st.create s.mem (some v)
    some {s with mem := made.1,stack := .code (vars++[made.2]) todo::rest}
  | .construct n moved =>
    match vars[n]? with
    | none => none
    | some x =>
      let v := st.read s.mem x
      if moved=true ∧ st.const x=false then
        let written := st.write s.mem x none
        let made := st.create written.1 v
        some {s with mem := made.1,stack := .code (vars.set n written.2++[made.2]) todo::rest}
      else
        let made := st.create s.mem v
        some {s with mem := made.1,stack := .code (vars++[made.2]) todo::rest}
  | .assign n v =>
    match vars[n]? with
    | none => none
    | some x =>
      if st.const x=true then none
      else
        let written := st.write s.mem x (some v)
        some {s with mem := written.1,stack := .code (vars.set n written.2) todo::rest}
  | .read n =>
    match vars[n]? with
    | none => none
    | some x => some {s with
        stack := .code vars todo::rest
        observed := st.read s.mem x::s.observed}
  | .connect c m => some {s with
      registered := Function.update s.registered c (s.registered c++[m])
      stack := .code vars todo::rest}
  | .call c args =>
    (args.mapM fun a => vars[a.number]?.map fun x =>
      st.argument x a.moved a.converts).map fun es => {s with
        stack := .loop (.sync c) 0 es (es.map (st.read s.mem)) none::.code vars todo::rest}
  | .send c args =>
    if isQueue c=true then
      (st.takeAll s.mem vars args).map fun r => {s with
        mem := r.2.1
        queue := Function.update s.queue c (s.queue c++[⟨r.1,r.1,false⟩])
        stack := .code r.2.2 todo::rest}
    else none
  | .get c position =>
    if isQueue c=true then
      (s.queue c)[position]?.map fun e =>
        let t := st.createAll s.mem e.data
        let args := t.2.map fun x => st.argument x true false
        {s with
          mem := t.1
          queue := Function.update s.queue c (received c position e (s.queue c))
          stack := .loop c 0 args (args.map (st.read t.1)) (some e)::.code vars todo::rest}
    else none

/-- Perform one step. -/
def Store.next (st : Store μ ν α) (byValue : η → Bool) (s : State μ ν η S F D α) :
    Act η S F D α → Option (State μ ν η S F D α)
  | .op o =>
    match s.stack with
    | .code vars none::rest => st.perform s vars none rest o
    | _ => none
  | .go =>
    match s.stack with
    | .code vars (some (o::todo))::rest => st.perform s vars (some todo) rest o
    | _ => none
  | .iterate =>
    match s.stack with
    | .loop c it args atCall source::rest =>
      (s.registered c)[it]?.map fun m =>
        let last := decide (it+1=(s.registered c).length)
        let made := st.call s.mem (passing byValue c m) last args
        {s with
          mem := made.1
          stack := .code made.2 (body c made.2.length m)::.loop c it args atCall source::rest
          shown := ⟨c,it,made.2.map (st.read made.1),atCall⟩::s.shown}
    | _ => none
  | .leaves back =>
    match s.stack with
    | .loop c it _ _ none::rest =>
      if (s.registered c).length ≤ it then some {s with stack := rest} else none
    | .loop c it args _ (some e)::.code vars todo::rest =>
      if (s.registered c).length ≤ it then
        let made := st.result s.mem args
        some {s with
          mem := made.1
          queue := Function.update s.queue c (popped c back (s.queue c))
          stack := .code (vars++made.2) todo::rest
          returned := ⟨c,e,made.2.map (st.read made.1)⟩::s.returned}
      else none
    | _ => none
  | .returns =>
    match s.stack with
    | .code _ todo::.loop c it args atCall source::rest =>
      if finished todo=true then some {s with stack := .loop c (it+1) args atCall source::rest}
      else none
    | _ => none
  | .throws =>
    match s.stack with
    | .code _ _::.loop _ _ _ _ _::rest => some {s with stack := rest}
    | _ => none

end FastEventSystem.ForwardedArguments
