import Mathlib.Data.List.Rotate

/-!
# A queue that is fed with what is taken from it

Every take removes the item at the front and puts it back at the end a fixed
number of times. Without feedback the queue drains, with one copy it turns
round for ever, with more it grows. Nothing below mentions a particular
program.
-/

namespace FastEventSystem.FeedbackQueue

variable {β : Type*}

/-- Take the front item and put it back some number of times. -/
def feed (k : ℕ) : List β → Option (β×List β)
  | [] => none
  | v::rest => some (v,rest++List.replicate k v)

/-- Several takes in a row: the items taken, oldest first, and the queue. -/
def feeds (k : ℕ) : ℕ → List β → Option (List β×List β)
  | 0,queue => some ([],queue)
  | n+1,queue =>
    match feed k queue with
    | none => none
    | some (v,queue') => (feeds k n queue').map fun r => (v::r.1,r.2)

/-- A take from a non-empty queue. -/
theorem feeds_cons (k n : ℕ) (v : β) (rest : List β) :
    feeds k (n+1) (v::rest)=
      (feeds k n (rest++List.replicate k v)).map fun r => (v::r.1,r.2) := rfl

/-- Takes are never refused when something is put back, nor before as many
takes as there are items. -/
theorem exists_feeds {k n : ℕ} {queue : List β} (hsome : queue≠[]) (hn : k=0 → n ≤ queue.length) :
    ∃ taken rest,feeds k n queue=some (taken,rest) := by
  induction n generalizing queue with
  | zero => exact ⟨[],queue,rfl⟩
  | succ n ih =>
    obtain ⟨v,rest,rfl⟩ := List.exists_cons_of_ne_nil hsome
    rw [feeds_cons]
    by_cases hlast : rest++List.replicate k v=[]
    · -- Nothing is left and nothing was put back, so this was the only take.
      obtain ⟨hrest,hback⟩ := List.append_eq_nil_iff.mp hlast
      have hk : k=0 := by
        have hlen := congrArg List.length hback
        rwa [List.length_replicate] at hlen
      have hle := hn hk
      rw [hrest,List.length_singleton] at hle
      have hzero : n=0 := by omega
      subst hzero
      exact ⟨[v],_,rfl⟩
    · obtain ⟨taken,rest',h⟩ := ih hlast (fun hk => by
        have hle := hn hk
        rw [List.length_cons] at hle
        rw [hk,List.replicate_zero,List.append_nil]
        omega)
      exact ⟨v::taken,rest',by rw [h]; rfl⟩

/-- Each take removes one item and adds as many as it puts back. -/
theorem feeds_length {k n : ℕ} {queue taken rest : List β}
    (h : feeds k n queue=some (taken,rest)) :
    taken.length=n ∧ rest.length+n=queue.length+n*k := by
  induction n generalizing queue taken with
  | zero =>
    cases h
    exact ⟨rfl,by omega⟩
  | succ n ih =>
    cases queue with
    | nil => cases h
    | cons v queue =>
      rw [feeds_cons,Option.map_eq_some_iff] at h
      obtain ⟨⟨taken',rest'⟩,h',hr⟩ := h
      cases hr
      obtain ⟨htaken,hrest⟩ := ih h'
      dsimp only at htaken hrest ⊢
      rw [List.length_append,List.length_replicate] at hrest
      rw [List.length_cons,List.length_cons,Nat.succ_mul]
      omega

/-- With one copy put back, the takes go round the queue. -/
theorem feeds_one_getElem? {n : ℕ} {queue taken rest : List β}
    (h : feeds 1 n queue=some (taken,rest)) {i : ℕ} (hi : i < n) :
    taken[i]?=queue[i%queue.length]? := by
  induction n generalizing queue taken i with
  | zero => omega
  | succ n ih =>
    cases queue with
    | nil => cases h
    | cons v queue =>
      rw [feeds_cons,Option.map_eq_some_iff] at h
      obtain ⟨⟨taken',rest'⟩,h',hr⟩ := h
      cases hr
      cases i with
      | zero => rw [Nat.zero_mod,List.getElem?_cons_zero,List.getElem?_cons_zero]
      | succ i =>
        have hturn : queue++List.replicate 1 v=(v::queue).rotate 1 := by
          rw [List.rotate_cons_succ,List.rotate_zero]
          rfl
        have hlt : i%(v::queue).length < (v::queue).length := Nat.mod_lt _ (Nat.succ_pos _)
        rw [List.getElem?_cons_succ,ih h' (by omega),hturn,List.length_rotate,
          List.getElem?_rotate hlt,Nat.mod_add_mod]

end FastEventSystem.FeedbackQueue
