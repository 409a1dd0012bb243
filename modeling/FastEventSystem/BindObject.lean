import FastEventSystem.DelayBridges

/-!
# A bind and its one target

A `bind` holds a single callable and a flag. Every overload of `connect` tests
the flag and throws when it is set. The overload for a callable, which those
for channels end in, sets it; the overload for a member function installs its
target through `_connect` and returns without setting it. Calls are listed in
the order in which they begin, so a call made by a target which is running
comes after the invocation that reached the target.
-/

namespace FastEventSystem.BindObject

open DelayBridges

variable {η σ φ δ α : Type*}

/-- What the `method` of a `bind` holds. -/
inductive Callable (η σ φ δ : Type*) where
  /-- The lambda of a default constructed `method`. -/
  | noop
  /-- A callable given by the caller. -/
  | functor (f : η)
  /-- `std::bind` of an object and one of its member functions. -/
  | bound (obj ptrFunc : η)
  /-- Calls a `sync`. -/
  | sync (callback : σ)
  /-- Sends to an `async_fast`. -/
  | fast (queue : φ)
  /-- Sends to an `async_delay`. -/
  | delay (priority delay : ℤ) (queue : δ)
  deriving DecidableEq

/-- What a callable does when it is called. -/
inductive Reached (η σ φ δ α : Type*) where
  /-- Nothing at all. -/
  | nothing
  /-- The given callable runs. -/
  | functor (f : η) (data : α)
  /-- The member function runs on its object. -/
  | member (obj ptrFunc : η) (data : α)
  /-- The `sync` is called. -/
  | sync (callback : σ) (data : α)
  /-- The arguments are sent to the `async_fast`. -/
  | fast (queue : φ) (data : α)
  /-- The arguments are sent to the `async_delay` with a priority and a point in time. -/
  | delay (queue : δ) (message : ℤ×ℤ) (data : α)
  deriving DecidableEq

/-- Call what a `method` holds. -/
def Callable.call : Callable η σ φ δ → α → Reached η σ φ δ α
  | .noop,_ => .nothing
  | .functor f,data => .functor f data
  | .bound obj ptrFunc,data => .member obj ptrFunc data
  | .sync callback,data => .sync callback data
  | .fast queue,data => .fast queue data
  | .delay priority after queue,data => .delay queue (bindConnect priority after) data

/-- A `bind` object. -/
structure Bind (η σ φ δ : Type*) where
  /-- The method `_reg`. -/
  reg : Callable η σ φ δ
  /-- The flag `_connected`. -/
  connected : Bool
  deriving DecidableEq

/-- A default constructed `bind`. -/
def Bind.fresh : Bind η σ φ δ := ⟨.noop,false⟩

/-- The text of the exception thrown by `connect`. -/
def alreadyConnected : String := "bind already connected!"

/-- Install a bound member function. The flag is not written here. -/
def Bind._connect (b : Bind η σ φ δ) (obj ptrFunc : η) : Bind η σ φ δ :=
  {b with reg := .bound obj ptrFunc}

/-- `connect` of an object and one of its member functions. -/
def Bind.connectMember (b : Bind η σ φ δ) (obj ptrFunc : η) : Except String (Bind η σ φ δ) :=
  if b.connected then .error alreadyConnected else .ok (b._connect obj ptrFunc)

/-- `connect` of a callable. -/
def Bind.connectMethod (b : Bind η σ φ δ) (method : Callable η σ φ δ) :
    Except String (Bind η σ φ δ) :=
  if b.connected then .error alreadyConnected else .ok ⟨method,true⟩

/-- `connect` of a `sync`, by a lambda which calls it. -/
def Bind.connectSync (b : Bind η σ φ δ) (callback : σ) : Except String (Bind η σ φ δ) :=
  b.connectMethod (.sync callback)

/-- `connect` of an `async_fast`, by a lambda which sends to it. -/
def Bind.connectFast (b : Bind η σ φ δ) (queue : φ) : Except String (Bind η σ φ δ) :=
  b.connectMethod (.fast queue)

/-- `connect` of an `async_delay`, by a lambda which sends to it. -/
def Bind.connectDelay (b : Bind η σ φ δ) (priority delay : ℤ) (queue : δ) :
    Except String (Bind η σ φ δ) :=
  b.connectMethod (.delay priority delay queue)

/-- Invoke the `bind`. -/
def Bind.operatorCall (b : Bind η σ φ δ) (data : α) : Reached η σ φ δ α := b.reg.call data

/-- A call of `connect`, by its overload. -/
inductive Connect (η σ φ δ : Type*) where
  /-- An object and one of its member functions. -/
  | member (obj ptrFunc : η)
  /-- Any callable. -/
  | functor (f : η)
  /-- A `sync`. -/
  | sync (callback : σ)
  /-- An `async_fast`. -/
  | fast (queue : φ)
  /-- An `async_delay` with priority and delay. -/
  | delay (priority delay : ℤ) (queue : δ)
  deriving DecidableEq

/-- The target a call of `connect` names. -/
def Connect.target : Connect η σ φ δ → Callable η σ φ δ
  | .member obj ptrFunc => .bound obj ptrFunc
  | .functor f => .functor f
  | .sync callback => .sync callback
  | .fast queue => .fast queue
  | .delay priority after queue => .delay priority after queue

/-- The overload is the one for a member function. -/
def Connect.isMember : Connect η σ φ δ → Bool
  | .member _ _ => true
  | _ => false

/-- Overload resolution of `connect`. -/
def Bind.connect (b : Bind η σ φ δ) : Connect η σ φ δ → Except String (Bind η σ φ δ)
  | .member obj ptrFunc => b.connectMember obj ptrFunc
  | .functor f => b.connectMethod (.functor f)
  | .sync callback => b.connectSync callback
  | .fast queue => b.connectFast queue
  | .delay priority after queue => b.connectDelay priority after queue

/-- One call on the object. -/
inductive Call (η σ φ δ α : Type*) where
  /-- A call of `connect`. -/
  | connect (c : Connect η σ φ δ)
  /-- An invocation. -/
  | invoke (data : α)
  deriving DecidableEq

/-- How a call ends for its caller. -/
inductive Outcome (η σ φ δ α : Type*) where
  /-- `connect` returned. -/
  | connected
  /-- `connect` threw a `std::runtime_error`. -/
  | throws (what : String)
  /-- The invocation called the held callable. -/
  | reaches (r : Reached η σ φ δ α)
  deriving DecidableEq

/-- Perform one call; an exception leaves the object as it was. -/
def Bind.perform (b : Bind η σ φ δ) : Call η σ φ δ α → Outcome η σ φ δ α×Bind η σ φ δ
  | .connect c =>
    match b.connect c with
    | .ok b' => (.connected,b')
    | .error what => (.throws what,b)
  | .invoke data => (.reaches (b.operatorCall data),b)

/-- The object after a sequence of calls. -/
def Bind.after (b : Bind η σ φ δ) (calls : List (Call η σ φ δ α)) : Bind η σ φ δ :=
  calls.foldl (fun b call => (b.perform call).2) b

/-- The calls of `connect` in a sequence of calls. -/
def connects (calls : List (Call η σ φ δ α)) : List (Connect η σ φ δ) :=
  calls.filterMap fun
    | .connect c => some c
    | .invoke _ => none

/-- Every overload tests the flag first, installs its target when the flag is
clear, and all but the one for a member function set the flag. -/
theorem connect_eq (b : Bind η σ φ δ) (c : Connect η σ φ δ) :
    b.connect c=if b.connected then .error alreadyConnected
      else .ok ⟨c.target,!c.isMember⟩ := by
  cases c with
  | member obj ptrFunc =>
    simp only [Bind.connect,Bind.connectMember,Bind._connect,Connect.target,Connect.isMember]
    split
    · rfl
    · rename_i hflag
      rw [Bool.not_eq_true] at hflag
      rw [hflag]
      rfl
  | functor | sync | fast | delay => rfl

/-- A `connect` on a set flag throws and changes nothing. -/
theorem perform_connect_of_connected {b : Bind η σ φ δ} (h : b.connected=true)
    (c : Connect η σ φ δ) :
    b.perform (.connect c : Call η σ φ δ α)=(.throws alreadyConnected,b) := by
  simp only [Bind.perform,connect_eq,h,if_true]

/-- A `connect` on a clear flag returns and installs its target. -/
theorem perform_connect_of_clear {b : Bind η σ φ δ} (h : b.connected=false)
    (c : Connect η σ φ δ) :
    b.perform (.connect c : Call η σ φ δ α)=(.connected,⟨c.target,!c.isMember⟩) := by
  simp only [Bind.perform,connect_eq,h,Bool.false_eq_true,if_false]

/-- Calls in a row are performed one after the other. -/
theorem after_append (b : Bind η σ φ δ) (calls more : List (Call η σ φ δ α)) :
    b.after (calls++more)=(b.after calls).after more := List.foldl_append

/-- One call more at the end of a sequence. -/
theorem after_concat (b : Bind η σ φ δ) (calls : List (Call η σ φ δ α)) (call : Call η σ φ δ α) :
    b.after (calls++[call])=((b.after calls).perform call).2 := by
  rw [after_append]
  rfl

/-- The connects of a sequence come in its order. -/
theorem connects_append (calls more : List (Call η σ φ δ α)) :
    connects (calls++more)=connects calls++connects more := List.filterMap_append

/-- The first connect of a sequence cuts the sequence at its call. -/
theorem connects_eq_cons {calls : List (Call η σ φ δ α)} {c : Connect η σ φ δ}
    {rest : List (Connect η σ φ δ)} (h : connects calls=c::rest) :
    ∃ before behind,calls=before++.connect c::behind ∧ connects before=[] ∧
      connects behind=rest := by
  obtain ⟨before,call,behind,rfl,hnone,hcall,hrest⟩ := List.filterMap_eq_cons_iff.mp h
  cases call with
  | connect d =>
    cases hcall
    exact ⟨before,behind,rfl,List.filterMap_eq_nil_iff.mpr hnone,hrest⟩
  | invoke data => cases hcall

/-- Invocations alone leave the object as it was. -/
theorem after_of_invocations (b : Bind η σ φ δ) {calls : List (Call η σ φ δ α)}
    (h : connects calls=[]) : b.after calls=b := by
  induction calls with
  | nil => rfl
  | cons call calls ih =>
    cases call with
    | connect c => cases h
    | invoke data => exact ih h

/-- Once the flag is set no call changes the object. -/
theorem after_of_connected {b : Bind η σ φ δ} (h : b.connected=true)
    (calls : List (Call η σ φ δ α)) : b.after calls=b := by
  induction calls with
  | nil => rfl
  | cons call calls ih =>
    have hstep : (b.perform call).2=b := by
      cases call with
      | connect c => rw [perform_connect_of_connected h c]
      | invoke data => rfl
    rw [Bind.after,List.foldl_cons,hstep]
    exact ih

/-- The flag is set exactly by a connect through another overload than the one
for a member function. -/
theorem connected_after (calls : List (Call η σ φ δ α)) :
    ((Bind.fresh : Bind η σ φ δ).after calls).connected=
      (connects calls).any fun c => !c.isMember := by
  induction calls using List.reverseRecOn with
  | nil => rfl
  | append_singleton calls call ih =>
    rw [after_concat,connects_append,List.any_append,←ih]
    cases call with
    | invoke data => exact (Bool.or_false _).symm
    | connect c =>
      have hone : connects [(.connect c : Call η σ φ δ α)]=[c] := rfl
      rw [hone,List.any_cons,List.any_nil,Bool.or_false]
      cases hflag : ((Bind.fresh : Bind η σ φ δ).after calls).connected with
      | true => rw [perform_connect_of_connected hflag c,hflag,Bool.true_or]
      | false => rw [perform_connect_of_clear hflag c,Bool.false_or]

/-- The object holds the target of its first connect as long as that connect
set the flag or no other followed it. -/
theorem after_of_first {calls : List (Call η σ φ δ α)} {c : Connect η σ φ δ}
    {rest : List (Connect η σ φ δ)} (h : connects calls=c::rest)
    (honly : c.isMember=true → rest=[]) :
    (Bind.fresh : Bind η σ φ δ).after calls=⟨c.target,!c.isMember⟩ := by
  obtain ⟨before,behind,rfl,hbefore,hbehind⟩ := connects_eq_cons h
  rw [after_append,after_of_invocations _ hbefore,Bind.after,List.foldl_cons,
    perform_connect_of_clear rfl c]
  cases hmember : c.isMember with
  | false => exact after_of_connected rfl behind
  | true => exact after_of_invocations _ (hbehind.trans (honly hmember))

/-- A `bind` connected at most once. Each call is looked at where it stands in
the sequence, on the object which the earlier calls left. -/
structure AtMostOnce (calls : List (Call η σ φ δ α)) : Prop where
  /-- The first connect returns. -/
  first : ∀ earlier c later,calls=earlier++.connect c::later → connects earlier=[] →
    (((Bind.fresh : Bind η σ φ δ).after earlier).perform
      (.connect c : Call η σ φ δ α)).1=.connected
  /-- Every later connect throws and leaves the object unchanged. -/
  later : ∀ earlier c later,calls=earlier++.connect c::later → connects earlier≠[] →
    ((Bind.fresh : Bind η σ φ δ).after earlier).perform (.connect c : Call η σ φ δ α)=
      (.throws alreadyConnected,Bind.fresh.after earlier)
  /-- An invocation after the first connect reaches exactly its target. -/
  reaches : ∀ earlier data later,calls=earlier++.invoke data::later →
    ∀ c∈(connects earlier).head?,
      ((Bind.fresh : Bind η σ φ δ).after earlier).perform (.invoke data : Call η σ φ δ α)=
        (.reaches (c.target.call data),Bind.fresh.after earlier)

/-- The first connect of the sequence goes through another overload than the
one for a member function, or no connect follows it. -/
def FirstLocks (calls : List (Call η σ φ δ α)) : Prop :=
  ∀ c rest,connects calls=c::rest → c.isMember=true → rest=[]

/-- The first of several connects locks the object when it is no member function. -/
theorem FirstLocks.not_member {earlier later : List (Call η σ φ δ α)} {c d : Connect η σ φ δ}
    {rest : List (Connect η σ φ δ)} (h : FirstLocks (earlier++.connect c::later))
    (hfirst : connects earlier=d::rest) : d.isMember=false := by
  have hall : connects (earlier++.connect c::later)=d::(rest++c::connects later) := by
    rw [connects_append,hfirst]
    rfl
  rw [Bool.eq_false_iff]
  intro hmember
  exact List.append_ne_nil_of_right_ne_nil rest (List.cons_ne_nil c _) (h d _ hall hmember)

/-- For every sequence of connects and invocations, the object is connected at
most once exactly when the first connect is not the one of a member function,
or stays the only one. -/
theorem atMostOnce_iff_firstLocks (calls : List (Call η σ φ δ α)) :
    AtMostOnce calls ↔ FirstLocks calls := by
  constructor
  · intro h c rest hconnects hmember
    obtain ⟨before,behind,rfl,hbefore,hbehind⟩ := connects_eq_cons hconnects
    cases rest with
    | nil => rfl
    | cons d rest =>
      -- The second connect still finds the flag clear, and so returns.
      obtain ⟨between,behind,rfl,hbetween,-⟩ := connects_eq_cons hbehind
      have hearlier : connects (before++.connect c::between)=[c] := by
        rw [connects_append,hbefore]
        exact congrArg (c::·) hbetween
      have hclear : ((Bind.fresh : Bind η σ φ δ).after
          (before++.connect c::between)).connected=false := by
        rw [connected_after,hearlier,List.any_cons,hmember]
        rfl
      have hthrows := h.later (before++.connect c::between) d behind
        (by rw [List.append_assoc,List.cons_append]) (by rw [hearlier]; exact List.cons_ne_nil c [])
      rw [perform_connect_of_clear hclear d] at hthrows
      cases congrArg Prod.fst hthrows
  · intro h
    refine ⟨fun earlier c later _ hnone => ?_,fun earlier c later hcalls hsome => ?_,
      fun earlier data later hcalls c hc => ?_⟩
    · rw [after_of_invocations _ hnone,perform_connect_of_clear rfl c]
    · obtain ⟨d,rest,hfirst⟩ := List.exists_cons_of_ne_nil hsome
      have hfree := (hcalls ▸ h).not_member hfirst
      refine perform_connect_of_connected ?_ c
      rw [connected_after,hfirst,List.any_cons,hfree]
      rfl
    · obtain ⟨rest,hfirst⟩ := List.head?_eq_some_iff.mp hc
      have hall : connects calls=c::(rest++connects later) := by
        rw [hcalls,connects_append,hfirst]
        rfl
      rw [after_of_first hfirst fun hmember =>
        (List.append_eq_nil_iff.mp (h c _ hall hmember)).1]
      rfl

/-- A member function is connected, a second callable is connected after it,
and the `bind` is invoked. -/
def reconnected : List (Call ℕ ℕ ℕ ℕ ℕ) := [.connect (.member 1 2),.connect (.functor 3),.invoke 10]

/-- The second connect returns and the invocation reaches the second target. -/
theorem reconnected_not_atMostOnce : ¬AtMostOnce reconnected ∧
    (Bind.fresh.after (reconnected.take 1)).perform (.connect (.functor 3) : Call ℕ ℕ ℕ ℕ ℕ)=
      (.connected,⟨.functor 3,true⟩) ∧
    ((Bind.fresh.after (reconnected.take 2)).perform (.invoke 10 : Call ℕ ℕ ℕ ℕ ℕ)).1=
      .reaches (.functor 3 10) := by
  refine ⟨fun h => ?_,rfl,rfl⟩
  have hlater := h.later [.connect (.member 1 2)] (.functor 3) [.invoke 10] rfl (by decide)
  cases congrArg Prod.fst hlater

end FastEventSystem.BindObject
