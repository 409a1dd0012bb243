import Mathlib.Order.Lattice
import Mathlib.Data.List.Pairwise
import Mathlib.Data.List.Nodup

/-!
# Walking with a cursor over an ordered list which changes

A cursor goes from one entry of a list to the following one, while the list is
edited between two of its moves. The entries are ordered by a key, and edits
keep that order. Each move is a turn: the key it starts from, the keys present
at that moment, and the key it chooses, none at the end. Every key has its turn
in exactly one move of a walk which reached the end, and is chosen exactly when
it is present then. Nothing below mentions a particular program.
-/

namespace FastEventSystem.CursorWalk

variable {α β : Type*}

/-- One move of the cursor. -/
structure Turn (α : Type*) where
  /-- Key of the entry the cursor leaves; none before the first. -/
  after : Option α
  /-- Keys of the entries present at this moment. -/
  present : List α
  /-- Key of the entry the cursor comes to; none at the end. -/
  chosen : Option α
  deriving DecidableEq

/-- The entry which follows the first one satisfying a test. -/
def following (p : β → Bool) (xs : List β) : Option β := (xs.dropWhile fun x => !p x).tail.head?

/-- The keys a walk came to, oldest first; its turns are kept newest first. -/
def visited (turns : List (Turn α)) : List α := (turns.filterMap Turn.chosen).reverse

section Order

variable [LinearOrder α]

/-- The key comes after the entry the cursor leaves. -/
def Turn.Ahead (t : Turn α) (c : α) : Prop := ∀ a∈t.after,a < c

/-- The key has its turn: it comes after the entry left and not after the one
chosen. -/
def Turn.Covers (t : Turn α) (c : α) : Prop := t.Ahead c ∧ ∀ b∈t.chosen,c ≤ b

/-- The move chooses the first present key ahead, and ends if there is none. -/
structure Turn.Exact (t : Turn α) : Prop where
  /-- The chosen key is present and ahead. -/
  sound : ∀ b∈t.chosen,b∈t.present ∧ t.Ahead b
  /-- No present key ahead is passed over. -/
  first : ∀ c∈t.present,t.Ahead c → ∃ b∈t.chosen,b ≤ c

/-- Moves in a row, newest first, each from where the one before came to. -/
inductive Walk : List (Turn α) → Prop
  | first (t : Turn α) : t.after=none → t.Exact → Walk [t]
  | next (t t' : Turn α) (turns : List (Turn α)) (b : α) : Walk (t::turns) → t.chosen=some b →
      t'.after=some b → t'.Exact → Walk (t'::t::turns)

/-- A walk whose newest move came to the given key, none at the end. -/
structure Arrived (turns : List (Turn α)) (chosen : Option α) : Prop where
  /-- The moves follow each other. -/
  walk : Walk turns
  /-- The newest move chose that key. -/
  newest : turns.head?.map Turn.chosen=some chosen

/-- In a list ordered by its keys, the entry which follows a given one is the
first with a larger key. -/
theorem following_spec {key : β → α} {p : β → Bool} {xs : List β} {x : β}
    (hsorted : (xs.map key).Pairwise (· < ·)) (hx : x∈xs) (hp : ∀ y∈xs,(p y=true ↔ y=x)) :
    (∀ y∈following p xs,y∈xs ∧ key x < key y) ∧
      ∀ z∈xs,key x < key z → ∃ y∈following p xs,key y ≤ key z := by
  induction xs with
  | nil => exact False.elim (List.not_mem_nil hx)
  | cons y xs ih =>
    rw [List.map_cons,List.pairwise_cons] at hsorted
    have hlater : ∀ z∈xs,key y < key z := fun z hz => hsorted.1 _ (List.mem_map.mpr ⟨z,hz,rfl⟩)
    by_cases hy : p y=true
    · obtain rfl : y=x := (hp y List.mem_cons_self).mp hy
      have hfollowing : following p (y::xs)=xs.head? := by
        simp only [following,List.dropWhile_cons,hy,Bool.not_true,Bool.false_eq_true,if_false,
          List.tail_cons]
      rw [hfollowing]
      cases xs with
      | nil =>
        refine ⟨nofun,fun z hz hlt => ?_⟩
        rw [List.mem_singleton.mp hz] at hlt
        exact False.elim (lt_irrefl _ hlt)
      | cons z xs =>
        rw [List.map_cons,List.pairwise_cons] at hsorted
        have hnext := hsorted.2.1
        refine ⟨fun w hw => ?_,fun w hw hlt => ⟨z,rfl,?_⟩⟩
        · obtain rfl : z=w := Option.some.inj hw
          exact ⟨List.mem_cons_of_mem _ List.mem_cons_self,hlater z List.mem_cons_self⟩
        · rcases List.mem_cons.mp hw with rfl|hw
          · exact False.elim (lt_irrefl _ hlt)
          · rcases List.mem_cons.mp hw with rfl|hw
            · exact le_refl _
            · exact (hnext _ (List.mem_map.mpr ⟨w,hw,rfl⟩)).le
    · have hne : y≠x := fun heq => hy ((hp y List.mem_cons_self).mpr heq)
      have hrest : x∈xs := (List.mem_cons.mp hx).resolve_left (Ne.symm hne)
      have hfollowing : following p (y::xs)=following p xs := by
        simp only [following,List.dropWhile_cons,hy,Bool.not_false,if_true]
      obtain ⟨hsound,hfirst⟩ := ih hsorted.2 hrest fun z hz => hp z (List.mem_cons_of_mem _ hz)
      rw [hfollowing]
      refine ⟨fun w hw => ?_,fun z hz hlt => ?_⟩
      · obtain ⟨hmem,hlt⟩ := hsound w hw
        exact ⟨List.mem_cons_of_mem _ hmem,hlt⟩
      · rcases List.mem_cons.mp hz with rfl|hz
        · exact False.elim (lt_asymm hlt (hlater x hrest))
        · exact hfirst z hz hlt

/-- In a list ordered by its keys the first entry has the least key. -/
theorem head_spec {key : β → α} {xs : List β} (hsorted : (xs.map key).Pairwise (· < ·)) :
    (∀ y∈xs.head?,y∈xs) ∧ ∀ z∈xs,∃ y∈xs.head?,key y ≤ key z := by
  cases xs with
  | nil => exact ⟨nofun,nofun⟩
  | cons x xs =>
    rw [List.map_cons,List.pairwise_cons] at hsorted
    refine ⟨fun y hy => ?_,fun z hz => ⟨x,rfl,?_⟩⟩
    · obtain rfl : x=y := Option.some.inj hy
      exact List.mem_cons_self
    · rcases List.mem_cons.mp hz with rfl|hz
      · exact le_refl _
      · exact (hsorted.1 _ (List.mem_map.mpr ⟨z,hz,rfl⟩)).le

/-- All moves of a walk choose exactly. -/
theorem Walk.exact {turns : List (Turn α)} (h : Walk turns) : ∀ t∈turns,t.Exact := by
  induction h with
  | first t _ hexact =>
    intro u hu
    rw [List.mem_singleton.mp hu]
    exact hexact
  | next t t' turns b _ _ _ hexact ih =>
    intro u hu
    rcases List.mem_cons.mp hu with rfl|hu
    · exact hexact
    · exact ih u hu

/-- Everything covered up to the newest move was covered by one of the moves. -/
theorem Walk.covers {t : Turn α} {turns : List (Turn α)} (h : Walk (t::turns)) {c : α}
    (hc : ∀ b∈t.chosen,c ≤ b) : ∃ u∈t::turns,u.Covers c := by
  generalize hall : t::turns=all at h
  induction h generalizing t turns with
  | first u hafter _ =>
    obtain ⟨rfl,rfl⟩ := List.cons.inj hall
    refine ⟨t,List.mem_cons_self,fun a ha => ?_,hc⟩
    rw [hafter] at ha
    cases ha
  | next u t' earlier b _ hchosen hafter _ ih =>
    obtain ⟨rfl,rfl⟩ := List.cons.inj hall
    by_cases hle : c ≤ b
    · obtain ⟨v,hv,hcovers⟩ := ih (fun d hd => by
        rw [hchosen] at hd
        obtain rfl : b=d := Option.some.inj hd
        exact hle) rfl
      exact ⟨v,List.mem_cons_of_mem _ hv,hcovers⟩
    · refine ⟨t,List.mem_cons_self,fun a ha => ?_,hc⟩
      rw [hafter] at ha
      obtain rfl : b=a := Option.some.inj ha
      exact lt_of_not_ge hle

/-- An older move has chosen a key not after the one the newest move leaves. -/
theorem Walk.chosen_le {t : Turn α} {turns : List (Turn α)} (h : Walk (t::turns)) :
    ∀ u∈turns,∃ b∈u.chosen,∀ c,t.Ahead c → b < c := by
  generalize hall : t::turns=all at h
  induction h generalizing t turns with
  | first u _ _ =>
    obtain ⟨rfl,rfl⟩ := List.cons.inj hall
    exact nofun
  | next u t' earlier b hwalk hchosen hafter _ ih =>
    obtain ⟨rfl,rfl⟩ := List.cons.inj hall
    intro v hv
    rcases List.mem_cons.mp hv with rfl|hv
    · exact ⟨b,hchosen,fun c hc => hc b hafter⟩
    · obtain ⟨d,hd,hlt⟩ := ih rfl v hv
      have hb : u.Ahead b := (hwalk.exact u List.mem_cons_self).sound b hchosen |>.2
      exact ⟨d,hd,fun c hc => (hlt b hb).trans (hc b hafter)⟩

/-- No key has its turn in two moves. -/
theorem Walk.covers_unique {turns : List (Turn α)} (h : Walk turns) {c : α} :
    ∀ t∈turns,∀ u∈turns,t.Covers c → u.Covers c → t=u := by
  induction h with
  | first t _ _ =>
    intro u hu v hv _ _
    rw [List.mem_singleton.mp hu,List.mem_singleton.mp hv]
  | next t t' turns b hwalk hchosen hafter hexact ih =>
    -- a key of the newest move lies after all that the older moves chose
    have hold : ∀ u∈t::turns,t'.Covers c → ¬u.Covers c := by
      intro u hu hnew hcovers
      obtain ⟨d,hd,hlt⟩ := (Walk.next t t' turns b hwalk hchosen hafter hexact).chosen_le u hu
      exact not_le_of_gt (hlt c hnew.1) (hcovers.2 d hd)
    intro u hu v hv hcu hcv
    rcases List.mem_cons.mp hu with rfl|holdu
    · rcases List.mem_cons.mp hv with rfl|holdv
      · rfl
      · exact False.elim (hold v holdv hcu hcv)
    · rcases List.mem_cons.mp hv with rfl|holdv
      · exact False.elim (hold u holdu hcv hcu)
      · exact ih u holdu v holdv hcu hcv

omit [LinearOrder α] in
/-- A key is visited exactly when some move chose it. -/
theorem mem_visited {turns : List (Turn α)} {c : α} :
    c∈visited turns ↔ ∃ t∈turns,t.chosen=some c := by
  rw [visited,List.mem_reverse,List.mem_filterMap]

/-- A key is visited exactly when it is present at its turn. -/
theorem Walk.mem_visited_iff {turns : List (Turn α)} (h : Walk turns) {t : Turn α} {c : α}
    (ht : t∈turns) (hcovers : t.Covers c) : c∈visited turns ↔ c∈t.present := by
  rw [mem_visited]
  refine ⟨fun hchosen => ?_,fun hpresent => ?_⟩
  · obtain ⟨u,hu,hc⟩ := hchosen
    have hexact := (h.exact u hu).sound c hc
    have hcovers' : u.Covers c := by
      refine ⟨hexact.2,fun b hb => ?_⟩
      rw [hc] at hb
      exact le_of_eq (Option.some.inj hb)
    rw [h.covers_unique t ht u hu hcovers hcovers']
    exact hexact.1
  · obtain ⟨b,hb,hle⟩ := (h.exact t ht).first c hpresent hcovers.1
    have heq : b=c := le_antisymm hle (hcovers.2 b hb)
    exact ⟨t,ht,heq ▸ hb⟩

/-- A walk visits keys in their order, none twice. -/
theorem Walk.visited_sorted {turns : List (Turn α)} (h : Walk turns) :
    (visited turns).Pairwise (· < ·) := by
  rw [visited,List.pairwise_reverse]
  induction h with
  | first t _ _ =>
    cases hc : t.chosen with
    | none => rw [List.filterMap_cons_none hc]; exact List.Pairwise.nil
    | some b => rw [List.filterMap_cons_some hc]; exact List.pairwise_singleton _ _
  | next t t' turns b hwalk hchosen hafter hexact ih =>
    cases hc : t'.chosen with
    | none =>
      rw [List.filterMap_cons_none hc]
      exact ih
    | some d =>
      rw [List.filterMap_cons_some hc]
      refine List.pairwise_cons.mpr ⟨fun e he => ?_,ih⟩
      obtain ⟨u,hu,hue⟩ := List.mem_filterMap.mp he
      obtain ⟨f,hf,hlt⟩ := (Walk.next t t' turns b hwalk hchosen hafter hexact).chosen_le u hu
      rw [hue] at hf
      obtain rfl : e=f := Option.some.inj hf
      exact hlt d (hexact.sound d hc).2

/-- The first move arrives where it chose to. -/
theorem Arrived.first {t : Turn α} (hafter : t.after=none) (hexact : t.Exact) :
    Arrived [t] t.chosen := ⟨.first t hafter hexact,rfl⟩

/-- A move from where the walk arrived continues it. -/
theorem Arrived.next {t : Turn α} {turns : List (Turn α)} {b : α} (h : Arrived turns (some b))
    (hafter : t.after=some b) (hexact : t.Exact) : Arrived (t::turns) t.chosen := by
  obtain ⟨hwalk,hnewest⟩ := h
  cases turns with
  | nil => cases hnewest
  | cons u turns =>
    have hchosen : u.chosen=some b := Option.some.inj hnewest
    exact ⟨.next u t turns b hwalk hchosen hafter hexact,rfl⟩

/-- In a walk which came to the end every key has its turn exactly once, and is
visited exactly when it is present then. -/
theorem Arrived.one_turn {turns : List (Turn α)} (h : Arrived turns none) (c : α) :
    ∃ t∈turns,t.Covers c ∧ (∀ u∈turns,u.Covers c → u=t) ∧ (c∈visited turns ↔ c∈t.present) := by
  obtain ⟨hwalk,hnewest⟩ := h
  cases turns with
  | nil => cases hnewest
  | cons u turns =>
    have hchosen : u.chosen=none := Option.some.inj hnewest
    obtain ⟨t,ht,hcovers⟩ := hwalk.covers (c := c) fun b hb => by
      rw [hchosen] at hb
      cases hb
    exact ⟨t,ht,hcovers,fun v hv hv' => hwalk.covers_unique v hv t ht hv' hcovers,
      hwalk.mem_visited_iff ht hcovers⟩

/-- What is present at every move of a walk to the end is visited exactly once. -/
theorem Arrived.count_visited {turns : List (Turn α)} (h : Arrived turns none) {c : α}
    (hc : ∀ t∈turns,c∈t.present) : (visited turns).count c=1 := by
  obtain ⟨t,ht,-,-,hvisited⟩ := h.one_turn c
  have hnodup : (visited turns).Nodup := h.walk.visited_sorted.imp fun {a b} hlt => hlt.ne
  exact List.count_eq_one_of_mem hnodup (hvisited.mpr (hc t ht))

end Order

end FastEventSystem.CursorWalk
