import Mathlib.Algebra.BigOperators.Fin
import Mathlib.Algebra.BigOperators.Group.Finset.Basic
import Mathlib.Algebra.Order.BigOperators.Group.Finset
import Mathlib.Data.Fintype.Card
import Mathlib.Data.Set.Card
import Mathlib.Logic.Relation
import Mathlib.Order.WellFounded

/-!
# Flow through finite acyclic wirings

Every vertex has a list of outgoing edges, parallel ones allowed, and every
edge leads to a vertex or out of the wiring. A route is a list of positions in
these lists. In a finite acyclic wiring a weight on vertices and edges has a
tally: what one item put into a vertex amounts to by the time everything it
causes has left. Counting one edge gives the number of routes which end with
that edge. Nothing below mentions a particular program.
-/

namespace FastEventSystem.AcyclicFlow

open Finset

/-- Vertices with ordered outgoing edges. -/
structure Wiring (V E : Type*) where
  /-- The outgoing edges of a vertex, in order. -/
  out : V → List E
  /-- The vertex an edge leads to, unless it leads out. -/
  hop : E → Option V

variable {V E : Type*} (g : Wiring V E)

/-- Some edge leads from one vertex to the other. -/
def Wiring.Feeds (u v : V) : Prop := ∃ e∈g.out u,g.hop e=some v

/-- No vertex feeds itself through any number of edges. -/
def Wiring.Acyclic : Prop := ∀ v,¬Relation.TransGen g.Feeds v v

/-- The vertex where a route from a given vertex arrives. -/
def Wiring.place (v : V) : List ℕ → Option V
  | [] => some v
  | i::route =>
    match (g.out v)[i]?.bind g.hop with
    | none => none
    | some w => Wiring.place w route

/-- The last edge of a route from a given vertex. -/
def Wiring.arrive (v : V) : List ℕ → Option E
  | [] => none
  | i::route =>
    match route with
    | [] => (g.out v)[i]?
    | _::_ =>
      match (g.out v)[i]?.bind g.hop with
      | none => none
      | some w => Wiring.arrive w route

/-- Sum of a length over the edges of a route. -/
def Wiring.measure (length : E → ℤ) (v : V) : List ℕ → ℤ
  | [] => 0
  | i::route =>
    match (g.out v)[i]? with
    | none => 0
    | some e => length e+
      match g.hop e with
      | none => 0
      | some w => Wiring.measure length w route

variable {g}

/-- In a finite acyclic wiring every descent along edges ends. -/
theorem Wiring.Acyclic.wellFounded [Finite V] (h : g.Acyclic) :
    WellFounded fun v u => g.Feeds u v := by
  have htrans : IsTrans V fun v u => Relation.TransGen g.Feeds u v :=
    ⟨fun _ _ _ hvu hwv => hwv.trans hvu⟩
  have hirrefl : Std.Irrefl fun v u => Relation.TransGen g.Feeds u v := ⟨h⟩
  have hwf : WellFounded fun v u => Relation.TransGen g.Feeds u v :=
    Finite.wellFounded_of_trans_of_irrefl _
  exact Subrelation.wf (fun h => Relation.TransGen.single h) hwf

/-- A rank which falls along every edge rules out cycles. -/
theorem acyclic_of_rank (rank : V → ℕ)
    (hfall : ∀ u,∀ e∈g.out u,∀ v,g.hop e=some v → rank v < rank u) : g.Acyclic := by
  have hlt : ∀ {u v},Relation.TransGen g.Feeds u v → rank v < rank u := by
    intro u v h
    induction h with
    | single h =>
      obtain ⟨e,he,hv⟩ := h
      exact hfall u e he _ hv
    | tail _ h ih =>
      obtain ⟨e,he,hv⟩ := h
      have hstep := hfall _ e he _ hv
      omega
  intro v h
  have hself := hlt h
  omega

/-- One more edge from where the route arrived. -/
theorem arrive_concat {v w : V} {route : List ℕ} {i : ℕ} {e : E}
    (hplace : g.place v route=some w) (he : (g.out w)[i]?=some e) :
    g.arrive v (route++[i])=some e := by
  induction route generalizing v with
  | nil =>
    cases hplace
    exact he
  | cons j route ih =>
    rw [Wiring.place] at hplace
    cases hhop : (g.out v)[j]?.bind g.hop with
    | none =>
      rw [hhop] at hplace
      cases hplace
    | some u =>
      rw [hhop] at hplace
      have hrest := ih hplace
      cases route with
      | nil => simpa only [List.cons_append,List.nil_append,Wiring.arrive,hhop] using hrest
      | cons k route => simpa only [List.cons_append,Wiring.arrive,hhop] using hrest

/-- The vertex reached is the one the last edge leads to. -/
theorem place_concat {v w u : V} {route : List ℕ} {i : ℕ} {e : E}
    (hplace : g.place v route=some w) (he : (g.out w)[i]?=some e) (hu : g.hop e=some u) :
    g.place v (route++[i])=some u := by
  induction route generalizing v with
  | nil =>
    cases hplace
    simp only [List.nil_append,Wiring.place,he,Option.bind_some,hu]
  | cons j route ih =>
    rw [Wiring.place] at hplace
    cases hhop : (g.out v)[j]?.bind g.hop with
    | none =>
      rw [hhop] at hplace
      cases hplace
    | some x =>
      rw [hhop] at hplace
      simp only [List.cons_append,Wiring.place,hhop]
      exact ih hplace

/-- One more edge adds its length. -/
theorem measure_concat (length : E → ℤ) {v w : V} {route : List ℕ} {i : ℕ} {e : E}
    (hplace : g.place v route=some w) (he : (g.out w)[i]?=some e) :
    g.measure length v (route++[i])=g.measure length v route+length e := by
  induction route generalizing v with
  | nil =>
    cases hplace
    simp only [List.nil_append,Wiring.measure,he]
    cases g.hop e <;> simp only <;> omega
  | cons j route ih =>
    rw [Wiring.place] at hplace
    cases hedge : (g.out v)[j]? with
    | none =>
      rw [hedge] at hplace
      cases hplace
    | some d =>
      rw [hedge,Option.bind_some] at hplace
      cases hhop : g.hop d with
      | none =>
        rw [hhop] at hplace
        cases hplace
      | some x =>
        rw [hhop] at hplace
        have hrest := ih hplace
        simp only [List.cons_append,Wiring.measure,hedge,hhop]
        omega

/-- What one item put into a vertex amounts to: the vertex itself, and for
each outgoing edge that edge and what it leads to. -/
noncomputable def tally (hwf : WellFounded fun v u => g.Feeds u v) (own : V → ℕ)
    (edge : E → ℕ) : V → ℕ :=
  hwf.fix fun v ih => own v+((g.out v).attach.map fun e =>
    edge e.1+(g.hop e.1).attach.elim 0 fun w =>
      ih w.1 ⟨e.1,e.2,Option.mem_def.mp w.2⟩).sum

/-- What one item on an edge amounts to. -/
noncomputable def edgeTally (hwf : WellFounded fun v u => g.Feeds u v) (own : V → ℕ)
    (edge : E → ℕ) (e : E) : ℕ :=
  edge e+(g.hop e).elim 0 (tally hwf own edge)

/-- The tally of a vertex is its own weight and the tallies of its edges. -/
theorem tally_eq (hwf : WellFounded fun v u => g.Feeds u v) (own : V → ℕ) (edge : E → ℕ)
    (v : V) :
    tally hwf own edge v=own v+((g.out v).map (edgeTally hwf own edge)).sum := by
  have hedge : ∀ e : E,((g.hop e).attach.elim 0 fun w => tally hwf own edge w.1)=
      (g.hop e).elim 0 (tally hwf own edge) := by
    intro e
    cases g.hop e <;> rfl
  rw [tally,WellFounded.fix_eq]
  change own v+((g.out v).attach.map fun e => edge e.1+(g.hop e.1).attach.elim 0 fun w =>
    tally hwf own edge w.1).sum=_
  simp only [hedge]
  exact congrArg (own v+List.sum ·) (List.attach_map_val (f := edgeTally hwf own edge))

/-- Weight one for the given edge, nothing for all others. -/
def only [DecidableEq E] (target e : E) : ℕ := if e=target then 1 else 0

section Counting

variable [DecidableEq E] (target : E) (routes : V → Finset (List ℕ))

/-- How a route may go on after an edge: it ends there if the edge is the
target, or it goes on from the vertex the edge leads to. -/
def tails (g : Wiring V E) (target : E) (routes : V → Finset (List ℕ)) (e : E) :
    Finset (List ℕ) :=
  (if e=target then {[]} else ∅)∪(g.hop e).elim ∅ routes

/-- The routes from a vertex, by their first edge. -/
def allRoutes (g : Wiring V E) (target : E) (routes : V → Finset (List ℕ)) (v : V) :
    Finset (List ℕ) :=
  univ.biUnion fun i : Fin (g.out v).length =>
    (tails g target routes (g.out v)[i.1]).image (List.cons i.1)

variable {target routes}

/-- The number of ways to go on is the tally of the edge. -/
theorem card_tails {e : E} {count : V → ℕ}
    (hroutes : ∀ w,g.hop e=some w → []∉routes w ∧ (routes w).card=count w) :
    (tails g target routes e).card=only target e+(g.hop e).elim 0 count := by
  have hends : (if e=target then ({[]} : Finset (List ℕ)) else ∅).card=only target e := by
    unfold only
    split <;> rfl
  rw [tails,card_union_of_disjoint]
  · rw [hends]
    cases hhop : g.hop e with
    | none => rfl
    | some w => exact congrArg (only target e+·) (hroutes w hhop).2
  · split
    · rw [disjoint_singleton_left]
      cases hhop : g.hop e with
      | none => exact notMem_empty _
      | some w => exact (hroutes w hhop).1
    · exact disjoint_empty_left _

/-- Routes with different first edges are different. -/
theorem card_allRoutes (v : V) :
    (allRoutes g target routes v).card=
      ((g.out v).map fun e => (tails g target routes e).card).sum := by
  rw [allRoutes,card_biUnion]
  · rw [←Fin.sum_univ_fun_getElem]
    refine sum_congr rfl fun i _ => ?_
    exact card_image_of_injective _ fun _ _ h => (List.cons.inj h).2
  · intro i _ j _ hne
    refine disjoint_left.mpr fun route hi hj => hne ?_
    obtain ⟨r,-,hr⟩ := mem_image.mp hi
    obtain ⟨r',-,hr'⟩ := mem_image.mp hj
    exact Fin.ext (List.cons.inj (hr.trans hr'.symm)).1

/-- Every way to go on after an edge arrives: at once, or from the next vertex. -/
theorem mem_tails {e : E} (hroutes : ∀ w,g.hop e=some w →
      ∀ route,route∈routes w ↔ g.arrive w route=some target) (rest : List ℕ) :
    rest∈tails g target routes e ↔
      rest=[] ∧ e=target ∨ ∃ w,g.hop e=some w ∧ g.arrive w rest=some target := by
  have hends : rest∈(if e=target then ({[]} : Finset (List ℕ)) else ∅) ↔
      rest=[] ∧ e=target := by
    split
    · rename_i heq
      rw [mem_singleton,and_iff_left heq]
    · rename_i hne
      exact iff_of_false (notMem_empty _) fun h => hne h.2
  rw [tails,mem_union,hends]
  cases hhop : g.hop e with
  | none => simp only [Option.elim_none,notMem_empty,reduceCtorEq,false_and,exists_false]
  | some w =>
    rw [Option.elim_some,hroutes w hhop]
    simp only [Option.some.injEq,exists_eq_left']

/-- A route from a vertex takes one of its edges and goes on. -/
theorem cons_mem_allRoutes {v : V} (i : ℕ) (rest : List ℕ) :
    i::rest∈allRoutes g target routes v ↔
      ∃ e,(g.out v)[i]?=some e ∧ rest∈tails g target routes e := by
  rw [allRoutes,mem_biUnion]
  constructor
  · rintro ⟨j,-,hj⟩
    obtain ⟨r,hr,heq⟩ := mem_image.mp hj
    cases heq
    exact ⟨_,List.getElem?_eq_getElem j.2,hr⟩
  · rintro ⟨e,he,hr⟩
    obtain ⟨hlt,rfl⟩ := List.getElem?_eq_some_iff.mp he
    exact ⟨⟨i,hlt⟩,mem_univ _,mem_image.mpr ⟨rest,hr,rfl⟩⟩

/-- Going on from the next vertices gives all routes. -/
theorem mem_allRoutes {v : V}
    (hroutes : ∀ w,g.Feeds v w → ∀ route,route∈routes w ↔ g.arrive w route=some target)
    (route : List ℕ) :
    route∈allRoutes g target routes v ↔ g.arrive v route=some target := by
  cases route with
  | nil =>
    simp only [allRoutes,mem_biUnion,mem_univ,mem_image,reduceCtorEq,and_false,exists_false,
      Wiring.arrive]
  | cons i rest =>
    rw [cons_mem_allRoutes]
    cases hout : (g.out v)[i]? with
    | none =>
      cases rest <;> simp only [reduceCtorEq,false_and,exists_false,Wiring.arrive,hout,
        Option.bind_none]
    | some e =>
      have hmem := List.mem_of_getElem? hout
      simp only [Option.some.injEq,exists_eq_left']
      rw [mem_tails fun w hhop => hroutes w ⟨e,hmem,hhop⟩]
      cases rest with
      | nil => simp only [Wiring.arrive,hout,true_and,reduceCtorEq,and_false,exists_false,
          or_false,Option.some.injEq]
      | cons j rest =>
        have harrive : g.arrive v (i::j::rest)=
            (g.hop e).bind fun w => g.arrive w (j::rest) := by
          simp only [Wiring.arrive,hout,Option.bind_some]
          cases g.hop e <;> rfl
        rw [harrive,Option.bind_eq_some_iff]
        simp only [reduceCtorEq,false_and,false_or]

end Counting

/-- The number of routes which end with an edge is its tally. -/
theorem ncard_routes [DecidableEq E] (hwf : WellFounded fun v u => g.Feeds u v) (target : E)
    (v : V) :
    Set.ncard {route | g.arrive v route=some target}=
      tally hwf (fun _ => 0) (only target) v := by
  have hexists : ∃ s : Finset (List ℕ),(∀ route,route∈s ↔ g.arrive v route=some target) ∧
      s.card=tally hwf (fun _ => 0) (only target) v := by
    induction v using hwf.induction with
    | h v ih =>
      choose! routes hroutes using ih
      refine ⟨allRoutes g target routes v,mem_allRoutes fun w hw => (hroutes w hw).1,?_⟩
      rw [card_allRoutes,tally_eq,Nat.zero_add]
      refine congrArg List.sum (List.map_congr_left fun e he => ?_)
      refine card_tails fun w hw => ?_
      have hw := hroutes w ⟨e,he,hw⟩
      refine ⟨fun hnil => ?_,hw.2⟩
      cases (hw.1 []).mp hnil
  obtain ⟨s,hs,hcard⟩ := hexists
  have hset : {route | g.arrive v route=some target}=(s : Set (List ℕ)) := by
    ext route
    exact (hs route).symm
  rw [hset,Set.ncard_coe_finset,hcard]

end FastEventSystem.AcyclicFlow
