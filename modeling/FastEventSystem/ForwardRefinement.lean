import FastEventSystem.ForwardedArguments
import FastEventSystem.GuardedRuns

/-!
# Forwarding to the last subscriber is copying to all

Reading every expression off the memory turns a state of the code into a state
in which all variables are values of their own. Under one invariant this map
commutes with every step, in both directions: the cells a level of the stack
owns lie above a mark, everything below it on the stack knows cells under that
mark only, and what a level knows beyond its own cells it knows as const. So a
move empties a cell which nobody else looks at, whatever the subscribers do
and however often the last branch is taken.
-/

namespace FastEventSystem.ForwardRefinement

open MoveCells SyncRegistry ForwardedArguments GuardedRuns
open ChannelNetwork (Chan)

variable {η S F D α : Type*}

/-- The value an expression shows. -/
def view (mem : Memory α) (e : Expr) : Copy α := ⟨read mem e.cell,e.const⟩

@[simp] theorem view_value (mem : Memory α) (e : Expr) : (view mem e).value=read mem e.cell := rfl

@[simp] theorem view_const (mem : Memory α) (e : Expr) : (view mem e).const=e.const := rfl

/-- A level of the stack with its values in place of expressions. -/
def valuedLevel (mem : Memory α) : Level Expr η S F D α → Level (Copy α) η S F D α
  | .code vars todo => .code (vars.map (view mem)) todo
  | .loop c it args atCall source => .loop c it (args.map (view mem)) atCall source

/-- A state of the code with its values in place of expressions. -/
def valued (s : State (Memory α) Expr η S F D α) : State Unit (Copy α) η S F D α :=
  ⟨(),s.registered,s.queue,s.stack.map (valuedLevel s.mem),s.shown,s.observed,s.returned⟩

/-- Variables of one level: its own cells lie from the mark up to the bound and
are distinct, the cells it has references to lie below the mark. -/
structure Owned (mark bound : ℕ) (vars : List Expr) : Prop where
  /-- No variable is beyond the bound. -/
  below : ∀ e∈vars,e.cell < bound
  /-- References are to older cells. -/
  refs : ∀ e∈vars,e.const=true → e.cell < mark
  /-- Own cells are not. -/
  own : ∀ e∈vars,e.const=false → mark ≤ e.cell
  /-- Own cells are distinct. -/
  apart : vars.Pairwise fun e f => e.const=false → f.const=false → e.cell≠f.cell

/-- Every level of the stack keeps to its own part of the memory. -/
inductive Separated : ℕ → List (Level Expr η S F D α) → Prop
  | nil (bound : ℕ) : Separated bound []
  | code {bound mark : ℕ} {vars : List Expr} {todo : Option (List (Op η S F D α))}
      {rest : List (Level Expr η S F D α)} : mark ≤ bound → Owned mark bound vars →
      Separated mark rest → Separated bound (.code vars todo::rest)
  | loop {bound mark : ℕ} {c : Chan S F D} {it : ℕ} {args : List Expr} {atCall : List (Option α)}
      {source : Option (Entry α)} {rest : List (Level Expr η S F D α)} : mark ≤ bound →
      (∀ e∈args,e.cell < bound ∧ e.empties=false) →
      (source.isSome=true → (∀ e∈args,mark ≤ e.cell) ∧ args.Pairwise fun e f => e.cell≠f.cell) →
      Separated mark rest → Separated bound (.loop c it args atCall source::rest)

/-- The calls in progress know no others' cells but by const reference. -/
def Apart (s : State (Memory α) Expr η S F D α) : Prop := Separated s.mem.length s.stack

/-- Variables stay owned when the memory grows. -/
theorem Owned.mono {mark bound bound' : ℕ} {vars : List Expr} (h : Owned mark bound vars)
    (hle : bound ≤ bound') : Owned mark bound' vars :=
  ⟨fun e he => (h.below e he).trans_le hle,h.refs,h.own,h.apart⟩

/-- The stack stays separated when the memory grows. -/
theorem Separated.mono {bound bound' : ℕ} {stack : List (Level Expr η S F D α)}
    (h : Separated bound stack) (hle : bound ≤ bound') : Separated bound' stack := by
  cases h with
  | nil => exact .nil bound'
  | code hmark hvars hrest => exact .code (hmark.trans hle) (hvars.mono hle) hrest
  | loop hmark hargs hsource hrest =>
    refine .loop (hmark.trans hle) (fun e he => ?_) hsource hrest
    exact ⟨(hargs e he).1.trans_le hle,(hargs e he).2⟩

/-- What a list of expressions shows depends on their cells only. -/
theorem map_view_congr {mem mem' : Memory α} {bound : ℕ} {es : List Expr}
    (hbelow : ∀ e∈es,e.cell < bound) (hsame : ∀ c < bound,read mem' c=read mem c) :
    es.map (view mem')=es.map (view mem) := by
  refine List.map_congr_left fun e he => ?_
  rw [view,view,hsame e.cell (hbelow e he)]

/-- What a stack shows depends on the cells below its bound only. -/
theorem map_valuedLevel_congr {mem mem' : Memory α} {bound : ℕ}
    {stack : List (Level Expr η S F D α)} (h : Separated bound stack)
    (hsame : ∀ c < bound,read mem' c=read mem c) :
    stack.map (valuedLevel mem')=stack.map (valuedLevel mem) := by
  induction h with
  | nil => rfl
  | code hmark hvars _ ih =>
    rw [List.map_cons,List.map_cons,ih fun c hc => hsame c (hc.trans_le hmark),valuedLevel,
      valuedLevel,map_view_congr hvars.below hsame]
  | loop hmark hargs _ _ ih =>
    rw [List.map_cons,List.map_cons,ih fun c hc => hsame c (hc.trans_le hmark),valuedLevel,
      valuedLevel,map_view_congr (fun e he => (hargs e he).1) hsame]

/-- New variables in a row after all others. -/
theorem Owned.append_new {mark bound : ℕ} {vars : List Expr} (h : Owned mark bound vars)
    {len : ℕ} (hlen : bound ≤ len) (hmark : mark ≤ len) (n : ℕ) :
    Owned mark (len+n) (vars++(List.range' len n).map Expr.own) := by
  have hnew : ∀ e∈(List.range' len n).map Expr.own,
      e.const=false ∧ len ≤ e.cell ∧ e.cell < len+n := by
    intro e he
    obtain ⟨c,hc,rfl⟩ := List.mem_map.mp he
    exact ⟨rfl,List.mem_range'_1.mp hc⟩
  refine ⟨fun e he => ?_,fun e he hconst => ?_,fun e he hconst => ?_,?_⟩
  · rcases List.mem_append.mp he with hold|he
    · have := h.below e hold
      omega
    · exact (hnew e he).2.2
  · rcases List.mem_append.mp he with hold|he
    · exact h.refs e hold hconst
    · rw [(hnew e he).1] at hconst
      cases hconst
  · rcases List.mem_append.mp he with hold|he
    · exact h.own e hold hconst
    · exact hmark.trans (hnew e he).2.1
  · refine List.pairwise_append.mpr ⟨h.apart,?_,fun e he f hf _ _ => ?_⟩
    · refine List.pairwise_map.mpr (List.Pairwise.imp ?_ List.pairwise_lt_range')
      intro c d hcd _ _
      exact hcd.ne
    · have hold := h.below e he
      have hlate := (hnew f hf).2.1
      omega

/-- No variables at all. -/
theorem Owned.nil (mark bound : ℕ) : Owned mark bound [] :=
  ⟨fun _ h => False.elim (List.not_mem_nil h),fun _ h => False.elim (List.not_mem_nil h),
    fun _ h => False.elim (List.not_mem_nil h),.nil⟩

/-- What the parameters of a called subscriber are: they show the values of the
arguments, they are own objects or const references, and nothing below the
bound changed. -/
structure Handed (low : ℕ) (mem : Memory α) (p : Passing) (args : List Expr)
    (made : Memory α×List Expr) : Prop where
  /-- Older objects have their values. -/
  kept : ∀ c < low,read made.1 c=read mem c
  /-- The parameters show the values of the arguments. -/
  shows : made.2.map (view made.1)=args.map fun e => ⟨read mem e.cell,decide (p=.constRef)⟩
  /-- The parameters keep to a new part of the memory. -/
  owned : ∃ mark,mem.length ≤ mark ∧ mark ≤ made.1.length ∧ Owned mark made.1.length made.2

/-- Objects made in a row are own variables with the values found there. -/
theorem map_view_own {mem : Memory α} {cs : List ℕ} :
    (cs.map Expr.own).map (view mem)=(cs.map (read mem)).map fun v => ⟨v,false⟩ := by
  rw [List.map_map,List.map_map]
  rfl

/-- References show the values found there. -/
theorem map_view_refs {mem : Memory α} {es : List Expr} (hconst : ∀ e∈es,e.const=true) :
    es.map (view mem)=(es.map fun e => read mem e.cell).map fun v => ⟨v,true⟩ := by
  rw [List.map_map]
  refine List.map_congr_left fun e he => ?_
  rw [view,hconst e he]
  rfl

/-- References to objects below the mark are no own cells. -/
theorem Owned.of_refs {bound : ℕ} {es : List Expr} (h : ∀ e∈es,e.cell < bound ∧ e.const=true) :
    Owned bound bound es := by
  refine ⟨fun e he => (h e he).1,fun e he _ => (h e he).1,fun e he hown => ?_,?_⟩
  · rw [(h e he).2] at hown
    cases hown
  · refine List.pairwise_of_forall_mem_list fun e he f _ hown => ?_
    rw [(h e he).2] at hown
    cases hown

/-- `std::function` hands its target const references; a target which takes
values copies them. Conversions empty distinct objects, all above the bound. -/
theorem functionCall_handed {mem : Memory α} (p : Passing) {args : List Expr} {low : ℕ}
    (hlow : low ≤ mem.length) (hcells : ∀ e∈args,e.cell < mem.length)
    (hempties : ∀ e∈args,e.empties=true → low ≤ e.cell)
    (hapart : args.Pairwise fun e f => e.empties=true ∨ f.empties=true → e.cell≠f.cell) :
    Handed low mem p args (functionCall mem p args) := by
  obtain ⟨hrefs,hgrows⟩ := bindAll_cells hcells
  have hvalues := map_read_bindAll hcells hapart
  have hkept : ∀ c < low,read (bindAll mem args).1 c=read mem c := by
    intro c hc
    refine read_bindAll_old hcells (hc.trans_le hlow) fun e he hmoves => ?_
    have habove := hempties e he hmoves
    omega
  rw [functionCall]
  generalize bindAll mem args=refs at hrefs hgrows hvalues hkept ⊢
  cases p with
  | constRef =>
    refine ⟨hkept,?_,refs.1.length,hgrows,le_rfl,.of_refs hrefs⟩
    rw [invokeTarget,map_view_refs fun e he => (hrefs e he).2,hvalues,List.map_map]
    rfl
  | value =>
    have hstay : ∀ e∈refs.2,e.moves=false := by
      intro e he
      rw [Expr.moves,(hrefs e he).2]
      exact Bool.and_false _
    obtain ⟨hcopied,hnew⟩ := constructAll_copies (fun e he => (hrefs e he).1) hstay
    have hlen := constructAll_length refs.1 refs.2
    rw [invokeTarget]
    refine ⟨fun c hc => ?_,?_,refs.1.length,hgrows,?_,?_⟩
    · exact (hcopied c ((hc.trans_le hlow).trans_le hgrows)).trans (hkept c hc)
    · rw [map_view_own,hnew,hvalues,List.map_map]
      rfl
    · rw [hlen]
      exact Nat.le_add_right _ _
    · rw [hlen,constructAll_cells]
      exact (Owned.nil refs.1.length refs.1.length).append_new le_rfl le_rfl _

/-- Copies are what `call_copy` gives to `std::function`; a conversion moves
from the copy. -/
theorem callCopy_handed {mem : Memory α} (p : Passing) {args : List Expr}
    (hcells : ∀ e∈args,e.cell < mem.length) (hstay : ∀ e∈args,e.moves=false) :
    Handed mem.length mem p args (callCopy mem p args) := by
  obtain ⟨hkept,hnew⟩ := constructAll_copies hcells hstay
  have hlen := constructAll_length mem args
  have hdata := constructAll_cells mem args
  have hfst : (((constructAll mem args).2.zip args).map Prod.fst)=(constructAll mem args).2 := by
    refine List.map_fst_zip ?_
    rw [hdata,List.length_range']
  rw [callCopy]
  dsimp only
  generalize hgiven : ((constructAll mem args).2.zip args).map (fun d =>
    {(Expr.own d.1).cast true with converts := d.2.converts})=given
  have hcopies : given.map Expr.cell=List.range' mem.length args.length := by
    rw [←hgiven,←hdata,List.map_map]
    exact hfst
  have hbetween : ∀ e∈given,mem.length ≤ e.cell ∧ e.cell < (constructAll mem args).1.length := by
    intro e he
    have hmem := List.mem_map_of_mem (f := Expr.cell) he
    rw [hcopies,List.mem_range'_1] at hmem
    rwa [hlen]
  have hapart : given.Pairwise fun e f => e.cell≠f.cell := by
    refine List.pairwise_map.mp ?_
    rw [hcopies]
    exact List.Pairwise.imp (fun hlt => hlt.ne) List.pairwise_lt_range'
  have hfree : given.Pairwise fun e f => e.empties=true ∨ f.empties=true → e.cell≠f.cell := by
    refine hapart.imp ?_
    intro e f hne _
    exact hne
  have hlow : mem.length ≤ (constructAll mem args).1.length := by omega
  obtain ⟨hkept',hshows,mark,hmark,hle,howned⟩ := functionCall_handed p hlow
    (fun e he => (hbetween e he).2) (fun e he _ => (hbetween e he).1) hfree
  refine ⟨fun c hc => (hkept' c hc).trans (hkept c hc),?_,mark,by omega,hle,howned⟩
  have hread : (given.map fun e => read (constructAll mem args).1 e.cell)=
      args.map fun e => read mem e.cell := by
    rw [←hnew,hdata,←hcopies,List.map_map]
    rfl
  have hvalues := congrArg (List.map fun v => (⟨v,decide (p=.constRef)⟩ : Copy α)) hread
  rw [List.map_map,List.map_map] at hvalues
  exact hshows.trans hvalues

/-- Forwarded or copied, a subscriber is handed the same. -/
theorem iteration_handed {mem : Memory α} (p : Passing) (last : Bool) {args : List Expr}
    (hargs : ∀ e∈args,e.cell < mem.length ∧ e.empties=false) :
    Handed mem.length mem p args (iteration mem p last args) := by
  have hnever : ∀ e∈args,e.empties≠true := by
    intro e he
    rw [(hargs e he).2]
    exact Bool.false_ne_true
  cases last with
  | true =>
    refine functionCall_handed p le_rfl (fun e he => (hargs e he).1)
      (fun e he hmoves => absurd hmoves (hnever e he)) ?_
    refine List.pairwise_of_forall_mem_list fun e he f hf hmoves => ?_
    exact absurd hmoves (not_or.mpr ⟨hnever e he,hnever f hf⟩)
  | false =>
    have hnamed : ∀ e∈args.map Expr.named,e.cell < mem.length ∧ e.moves=false := by
      intro e he
      obtain ⟨d,hd,rfl⟩ := List.mem_map.mp he
      exact ⟨(hargs d hd).1,rfl⟩
    obtain ⟨hkept,hshows,howned⟩ := callCopy_handed p (fun e he => (hnamed e he).1)
      fun e he => (hnamed e he).2
    refine ⟨hkept,?_,howned⟩
    rw [List.map_map] at hshows
    exact hshows

/-- The parameters of a called subscriber have the values of the arguments. -/
theorem map_read_of_handed {low : ℕ} {mem : Memory α} {p : Passing} {args : List Expr}
    {made : Memory α×List Expr} (h : Handed low mem p args made) :
    (made.2.map fun e => read made.1 e.cell)=args.map fun e => read mem e.cell := by
  have hvalues := congrArg (List.map Copy.value) h.shows
  rw [List.map_map,List.map_map] at hvalues
  exact hvalues

/-- What `n` objects have if they are the arguments in a cell of a network. -/
def contents (n : ℕ) (data : ChannelNetwork.Cell S F D (List α)) : List (Option α) :=
  match ChannelNetwork.payload data with
  | some values => values.map some
  | none => List.replicate n none

/-- A call in a network of channels is one of the code, with arguments of the
types in `Args`: forwarded or copied, the parameters have what the cell has, and
the caller's objects are as they were. -/
theorem iteration_of_cell {mem : Memory α} (p : Passing) (last : Bool) {args : List Expr}
    {data : ChannelNetwork.Cell S F D (List α)} (m : Method η S F D) (i : ℕ)
    (hargs : ∀ e∈args,e.cell < mem.length ∧ e.converts=false)
    (hdata : (args.map fun e => read mem e.cell)=contents args.length data) :
    let made := iteration mem p last args
    let called := if last=true then ChannelNetwork.forwardCall m i data
      else ChannelNetwork.callCopy m i data
    (made.2.map fun e => read made.1 e.cell)=contents args.length called.1.data ∧
      (args.map fun e => read made.1 e.cell)=contents args.length called.2 := by
  have hstays : ∀ e∈args,e.cell < mem.length ∧ e.empties=false := by
    intro e he
    refine ⟨(hargs e he).1,?_⟩
    rw [Expr.empties,(hargs e he).2]
    rfl
  have hhanded := iteration_handed p last hstays
  have hcalled : (if last=true then ChannelNetwork.forwardCall m i data
      else ChannelNetwork.callCopy m i data)=(⟨m,ChannelNetwork.extend i data⟩,data) := by
    cases last <;> rfl
  have hsame : contents args.length (ChannelNetwork.extend i data)=
      contents args.length data := by
    rw [contents,contents,ChannelNetwork.payload_extend]
  dsimp only
  rw [hcalled,hsame]
  refine ⟨(map_read_of_handed hhanded).trans hdata,Eq.trans ?_ hdata⟩
  exact List.map_congr_left fun e he => hhanded.kept e.cell (hargs e he).1

/-- An own cell is the cell of no other variable. -/
theorem Owned.cell_ne {mark bound : ℕ} {vars : List Expr} (h : Owned mark bound vars) {n j : ℕ}
    {e f : Expr} (he : vars[n]?=some e) (hf : vars[j]?=some f) (hown : e.const=false)
    (hne : j≠n) : e.cell≠f.cell := by
  cases hconst : f.const with
  | true =>
    have href := h.refs f (List.mem_of_getElem? hf) hconst
    have hmark := h.own e (List.mem_of_getElem? he) hown
    omega
  | false =>
    obtain ⟨hn,rfl⟩ := List.getElem?_eq_some_iff.mp he
    obtain ⟨hj,rfl⟩ := List.getElem?_eq_some_iff.mp hf
    have hpairs := List.pairwise_iff_getElem.mp h.apart
    rcases Nat.lt_or_gt_of_ne hne with hlt|hgt
    · exact (hpairs j n hj hn hlt hconst hown).symm
    · exact hpairs n j hn hj hgt hown hconst

/-- Overwriting an own variable overwrites that value alone. -/
theorem map_view_set {mem : Memory α} {mark bound : ℕ} {vars : List Expr}
    (h : Owned mark bound vars) (hbound : bound ≤ mem.length) {n : ℕ} {e : Expr}
    (he : vars[n]?=some e) (hown : e.const=false) (v : Option α) :
    vars.map (view (mem.set e.cell v))=(vars.map (view mem)).set n ⟨v,e.const⟩ := by
  refine List.ext_getElem? fun j => ?_
  rw [List.getElem?_set,List.getElem?_map,List.getElem?_map]
  split
  · rename_i hj
    subst hj
    have hlt : n < (vars.map (view mem)).length := by
      rw [List.length_map]
      exact (List.getElem?_eq_some_iff.mp he).1
    have hcell := h.below e (List.mem_of_getElem? he)
    rw [if_pos hlt,he,Option.map_some,view,read_set_self (by omega)]
  · rename_i hj
    cases hf : vars[j]? with
    | none => rfl
    | some f =>
      have hne := h.cell_ne he hf hown (Ne.symm hj)
      rw [Option.map_some,Option.map_some,view,view,read_set_of_ne hne]

/-- Overwriting a cell from the mark on is not seen below it. -/
theorem read_set_above (mem : Memory α) {mark d : ℕ} (hd : mark ≤ d) (v : Option α) :
    ∀ c < mark,read (mem.set d v) c=read mem c :=
  fun c hc => read_set_of_ne (by omega) v

/-- Reading expressions is reading the values they show. -/
theorem map_read_view (mem : Memory α) (es : List Expr) :
    es.map (cells.read mem)=(es.map (view mem)).map (copies.read ()) := by
  rw [List.map_map]
  rfl

/-- A variable found by its number, and the value it shows. -/
theorem getElem?_view (mem : Memory α) (vars : List Expr) (n : ℕ) :
    (vars.map (view mem))[n]?=vars[n]?.map (view mem) := List.getElem?_map

/-- Putting a variable where it is changes nothing. -/
theorem set_of_getElem? {vars : List Expr} {n : ℕ} {e : Expr} (he : vars[n]?=some e) :
    vars.set n e=vars := by
  obtain ⟨hn,rfl⟩ := List.getElem?_eq_some_iff.mp he
  exact List.set_getElem_self hn

/-- New cells in a row. -/
theorem cells_createAll (mem : Memory α) (vs : List (Option α)) :
    (cells : Store (Memory α) Expr α).createAll mem vs=
      (mem++vs,(List.range' mem.length vs.length).map Expr.own) := by
  induction vs generalizing mem with
  | nil => rw [List.append_nil]; rfl
  | cons v vs ih =>
    have hlen : (mem++[v]).length=mem.length+1 := List.length_append
    simp only [Store.createAll,cells_create,ih,hlen,List.append_assoc,List.singleton_append,
      List.length_cons,List.range'_succ,List.map_cons]

/-- New copies. -/
theorem copies_createAll (vs : List (Option α)) :
    (copies : Store Unit (Copy α) α).createAll () vs=((),vs.map fun v => ⟨v,false⟩) := by
  induction vs with
  | nil => rfl
  | cons v vs ih => simp only [Store.createAll,copies_create,ih,List.map_cons]

/-- Values moved out of own variables: the same values either way, the variables
stay what they are, and nothing below the mark changes. -/
theorem cells_takeAll {mem : Memory α} {mark bound : ℕ} {vars : List Expr}
    (h : Owned mark bound vars) (hbound : bound ≤ mem.length) (ns : List ℕ) :
    (copies : Store Unit (Copy α) α).takeAll () (vars.map (view mem)) ns=
      ((cells : Store (Memory α) Expr α).takeAll mem vars ns).map
        (fun r => (r.1,(),r.2.2.map (view r.2.1))) ∧
    ∀ r∈(cells : Store (Memory α) Expr α).takeAll mem vars ns,
      r.2.2=vars ∧ r.2.1.length=mem.length ∧ ∀ c < mark,read r.2.1 c=read mem c := by
  induction ns generalizing mem with
  | nil =>
    refine ⟨rfl,fun r hr => ?_⟩
    cases hr
    exact ⟨rfl,rfl,fun _ _ => rfl⟩
  | cons n ns ih =>
    rw [Store.takeAll,Store.takeAll,getElem?_view]
    cases he : vars[n]? with
    | none => exact ⟨rfl,fun r hr => by cases hr⟩
    | some e =>
      have hview : (copies : Store Unit (Copy α) α).const (view mem e)=e.const := rfl
      have hcell : (cells : Store (Memory α) Expr α).const e=e.const := rfl
      dsimp only [Option.map_some]
      cases hown : e.const with
      | true =>
        rw [if_pos (hview.trans hown),if_pos (hcell.trans hown)]
        exact ⟨rfl,fun r hr => by cases hr⟩
      | false =>
        have hmark := h.own e (List.mem_of_getElem? he) hown
        have hlen : (mem.set e.cell none).length=mem.length := List.length_set
        obtain ⟨hvalues,hafter⟩ := @ih (mem.set e.cell none) (by omega)
        rw [map_view_set h hbound he hown none] at hvalues
        rw [if_neg (by rw [hview,hown]; exact Bool.false_ne_true),
          if_neg (by rw [hcell,hown]; exact Bool.false_ne_true)]
        simp only [cells_write,copies_write,copies_read,cells_read,view_const,view_value]
        rw [set_of_getElem? he,hvalues,Option.map_map,Option.map_map]
        refine ⟨rfl,fun r hr => ?_⟩
        obtain ⟨u,hu,rfl⟩ := Option.map_eq_some_iff.mp hr
        obtain ⟨hvars,hlength,hread⟩ := hafter u hu
        exact ⟨hvars,hlength.trans hlen,fun c hc => (hread c hc).trans
          (read_set_above mem hmark none c hc)⟩

/-- Variables as arguments: the same values, and cells which the level knows;
without an rvalue of another type none is emptied by its conversion. -/
theorem mapM_argument (mem : Memory α) {bound : ℕ} {vars : List Expr}
    (hbelow : ∀ e∈vars,e.cell < bound) {args : List Argument}
    (htyped : ∀ a∈args,a.converts=true → a.moved=false) :
    (args.mapM fun a => (vars.map (view mem))[a.number]?.map fun x =>
        (copies : Store Unit (Copy α) α).argument x a.moved a.converts)=
      (args.mapM fun a => vars[a.number]?.map fun x =>
        (cells : Store (Memory α) Expr α).argument x a.moved a.converts).map
          (List.map (view mem)) ∧
    ∀ es∈args.mapM fun a => vars[a.number]?.map fun x =>
        (cells : Store (Memory α) Expr α).argument x a.moved a.converts,
      ∀ e∈es,e.cell < bound ∧ e.empties=false := by
  induction args with
  | nil =>
    refine ⟨rfl,fun es hes => ?_⟩
    cases hes
    exact fun e he => False.elim (List.not_mem_nil he)
  | cons a args ih =>
    obtain ⟨hfirst,hothers⟩ := List.forall_mem_cons.mp htyped
    obtain ⟨hvalues,hcells⟩ := ih hothers
    rw [List.mapM_cons,List.mapM_cons,hvalues,getElem?_view]
    cases he : vars[a.number]? with
    | none => exact ⟨rfl,fun es hes => by cases hes⟩
    | some e =>
      cases hes : args.mapM fun a => vars[a.number]?.map fun x =>
          (cells : Store (Memory α) Expr α).argument x a.moved a.converts with
      | none => exact ⟨rfl,fun es hes => by cases hes⟩
      | some es =>
        refine ⟨rfl,fun fs hfs => ?_⟩
        cases hfs
        refine List.forall_mem_cons.mpr ⟨⟨hbelow e (List.mem_of_getElem? he),?_⟩,hcells es hes⟩
        change (a.converts && (a.moved && !e.const))=false
        cases hconverts : a.converts with
        | false => rfl
        | true => rw [hfirst hconverts]; rfl

/-- A local tuple shows what it was filled with. -/
theorem map_view_tuple (mem data : Memory α) :
    (((List.range' mem.length data.length).map Expr.own).map fun x =>
        {x.cast true with converts := false}).map (view (mem++data))=
      data.map fun v => ⟨v,false⟩ := by
  have hvalues := congrArg (List.map fun v => (⟨v,false⟩ : Copy α)) (map_read_range mem data)
  rw [List.map_map] at hvalues
  rw [List.map_map,List.map_map]
  exact hvalues

/-- The cells of a local tuple, as rvalues of the types of the queue. -/
theorem mem_tuple {len n : ℕ} {e : Expr}
    (he : e∈((List.range' len n).map Expr.own).map fun x =>
      {x.cast true with converts := false}) :
    len ≤ e.cell ∧ e.cell < len+n ∧ e.empties=false := by
  obtain ⟨x,hx,rfl⟩ := List.mem_map.mp he
  obtain ⟨c,hc,rfl⟩ := List.mem_map.mp hx
  obtain ⟨hle,hlt⟩ := List.mem_range'_1.mp hc
  exact ⟨hle,hlt,rfl⟩

section Running

variable {mem : Memory α} {mark : ℕ} {vars : List Expr} {rest : List (Level Expr η S F D α)}

/-- A new variable is a new value, and nothing else changes. -/
theorem map_valuedLevel_create (hmark : mark ≤ mem.length) (hvars : Owned mark mem.length vars)
    (hrest : Separated mark rest) (v : Option α) (todo : Option (List (Op η S F D α))) :
    (.code (vars++[Expr.own mem.length]) todo::rest).map (valuedLevel (mem++[v]))=
      .code (vars.map (view mem)++[⟨v,false⟩]) todo::rest.map (valuedLevel mem) := by
  have hkept : ∀ c < mem.length,read (mem++[v]) c=read mem c := fun c hc => read_append hc [v]
  have hnew : view (mem++[v]) (Expr.own mem.length)=⟨v,false⟩ :=
    congrArg (fun w => (⟨w,false⟩ : Copy α)) (read_length mem v)
  rw [List.map_cons,map_valuedLevel_congr hrest fun c hc => hkept c (hc.trans_le hmark),
    valuedLevel,List.map_append,map_view_congr hvars.below hkept,List.map_singleton,hnew]

/-- A new variable keeps the levels apart. -/
theorem separated_create (hmark : mark ≤ mem.length) (hvars : Owned mark mem.length vars)
    (hrest : Separated mark rest) (v : Option α) (todo : Option (List (Op η S F D α))) :
    Separated (mem++[v]).length (.code (vars++[Expr.own mem.length]) todo::rest) := by
  have hlen : (mem++[v]).length=mem.length+1 := List.length_append
  rw [hlen]
  exact .code (hmark.trans (Nat.le_succ _)) (hvars.append_new le_rfl hmark 1) hrest

/-- A written variable is a written value, and nothing else changes. -/
theorem map_valuedLevel_write (hvars : Owned mark mem.length vars) (hrest : Separated mark rest)
    {n : ℕ} {e : Expr} (he : vars[n]?=some e) (hown : e.const=false) (v : Option α)
    (todo : Option (List (Op η S F D α))) :
    (.code vars todo::rest).map (valuedLevel (mem.set e.cell v))=
      .code ((vars.map (view mem)).set n ⟨v,e.const⟩) todo::rest.map (valuedLevel mem) := by
  have hmark := hvars.own e (List.mem_of_getElem? he) hown
  rw [List.map_cons,map_valuedLevel_congr hrest (read_set_above mem hmark v),valuedLevel,
    map_view_set hvars le_rfl he hown v]

end Running

variable [DecidableEq S] [DecidableEq F] [DecidableEq D]

/-- One operation of running code does the same to its cells as to values of
its own, and keeps the levels apart. -/
def Commutes (s : State (Memory α) Expr η S F D α) (vars : List Expr)
    (rest : List (Level Expr η S F D α)) (todo : Option (List (Op η S F D α)))
    (o : Op η S F D α) : Prop :=
  Carries valued Apart (cells.perform s vars todo rest o)
    (copies.perform (valued s) (vars.map (view s.mem)) todo (rest.map (valuedLevel s.mem)) o)

section Operations

variable {s : State (Memory α) Expr η S F D α} {mark : ℕ} {vars : List Expr}
  {rest : List (Level Expr η S F D α)} (hmark : mark ≤ s.mem.length)
  (hvars : Owned mark s.mem.length vars) (hrest : Separated mark rest)
  (todo : Option (List (Op η S F D α)))

include hmark hvars hrest

/-- Making a variable. -/
theorem commutes_create (v : α) : Commutes s vars rest todo (.create v) := by
  refine .stepped ?_ (separated_create hmark hvars hrest (some v) todo)
  simp only [cells_create,copies_create,valued]
  rw [map_valuedLevel_create hmark hvars hrest]

/-- Constructing a variable from another one. -/
theorem commutes_construct (n : ℕ) (moved : Bool) :
    Commutes s vars rest todo (.construct n moved) := by
  unfold Commutes
  simp only [Store.perform,getElem?_view]
  cases he : vars[n]? with
  | none => exact .refused
  | some e =>
    dsimp only [Option.map_some]
    by_cases hmove : moved=true ∧ e.const=false
    · -- The source is an own variable, and its cell is emptied first.
      have hlen : (s.mem.set e.cell none).length=s.mem.length := List.length_set
      have hvars' : Owned mark (s.mem.set e.cell none).length vars := by rw [hlen]; exact hvars
      have hmark' : mark ≤ (s.mem.set e.cell none).length := by rw [hlen]; exact hmark
      have hmem := hvars.own e (List.mem_of_getElem? he) hmove.2
      have hview := map_view_set hvars le_rfl he hmove.2 none
      have hbelow := map_valuedLevel_congr hrest (read_set_above s.mem hmem none)
      rw [if_pos (show moved=true ∧ copies.const (view s.mem e)=false from hmove),
        if_pos (show moved=true ∧ cells.const e=false from hmove)]
      simp only [cells_write,copies_write,cells_create,copies_create,copies_read,cells_read,
        view_value,view_const,set_of_getElem? he]
      refine .stepped ?_ (separated_create hmark' hvars' hrest _ todo)
      simp only [valued]
      rw [map_valuedLevel_create hmark' hvars' hrest,hview,hbelow]
    · rw [if_neg (show ¬(moved=true ∧ copies.const (view s.mem e)=false) from hmove),
        if_neg (show ¬(moved=true ∧ cells.const e=false) from hmove)]
      refine .stepped ?_ (separated_create hmark hvars hrest _ todo)
      simp only [cells_create,copies_create,copies_read,cells_read,view_value,valued]
      rw [map_valuedLevel_create hmark hvars hrest]

/-- Overwriting a variable. -/
theorem commutes_assign (n : ℕ) (v : α) : Commutes s vars rest todo (.assign n v) := by
  unfold Commutes
  simp only [Store.perform,getElem?_view]
  cases he : vars[n]? with
  | none => exact .refused
  | some e =>
    dsimp only [Option.map_some]
    cases hown : e.const with
    | true =>
      rw [if_pos (show copies.const (view s.mem e)=true from hown),
        if_pos (show (cells : Store (Memory α) Expr α).const e=true from hown)]
      exact .refused
    | false =>
      have hlen : (s.mem.set e.cell (some v)).length=s.mem.length := List.length_set
      rw [if_neg (show ¬copies.const (view s.mem e)=true from Bool.not_eq_true _ ▸ hown),
        if_neg (show ¬(cells : Store (Memory α) Expr α).const e=true from
          Bool.not_eq_true _ ▸ hown)]
      simp only [cells_write,copies_write,view_const,set_of_getElem? he]
      refine .stepped ?_ ?_
      · simp only [valued]
        rw [map_valuedLevel_write hvars hrest he hown]
      · rw [Apart,hlen]
        exact .code hmark hvars hrest

/-- Calling a `sync`, without an rvalue of another type. -/
theorem commutes_call (c : S) {args : List Argument}
    (htyped : ∀ a∈args,a.converts=true → a.moved=false) :
    Commutes s vars rest todo (.call c args) := by
  obtain ⟨hvalues,hcells⟩ := mapM_argument s.mem hvars.below htyped
  unfold Commutes
  simp only [Store.perform,hvalues]
  cases hes : args.mapM fun a => vars[a.number]?.map fun x =>
      (cells : Store (Memory α) Expr α).argument x a.moved a.converts with
  | none => exact .refused
  | some es =>
    refine .stepped ?_ (.loop le_rfl (hcells es hes) (fun h => by cases h)
      (.code hmark hvars hrest))
    simp only [valued,List.map_cons,valuedLevel,List.map_map]
    rfl

/-- Sending variables to a queue. -/
theorem commutes_send (c : Chan S F D) (args : List ℕ) :
    Commutes s vars rest todo (.send c args) := by
  obtain ⟨hvalues,hafter⟩ := cells_takeAll hvars le_rfl args
  unfold Commutes
  simp only [Store.perform]
  split
  · rw [show (valued s).mem=() from rfl,hvalues]
    cases hr : (cells : Store (Memory α) Expr α).takeAll s.mem vars args with
    | none => exact .refused
    | some r =>
      obtain ⟨hsame,hlen,hread⟩ := hafter r hr
      refine .stepped ?_ ?_
      · simp only [valued,List.map_cons,valuedLevel]
        rw [map_valuedLevel_congr hrest hread]
      · dsimp only [Apart]
        rw [hsame,hlen]
        exact .code hmark hvars hrest
  · exact .refused

/-- Receiving from a queue. -/
theorem commutes_get (c : Chan S F D) (position : ℕ) :
    Commutes s vars rest todo (.get c position) := by
  unfold Commutes
  simp only [Store.perform]
  split
  · rw [show (valued s).queue=s.queue from rfl]
    cases he : (s.queue c)[position]? with
    | none => exact .refused
    | some e =>
      have hkept : ∀ c < s.mem.length,read (s.mem++e.data) c=read s.mem c :=
        fun c hc => read_append hc e.data
      have hlen : (s.mem++e.data).length=s.mem.length+e.data.length := List.length_append
      have hcode : Separated s.mem.length (.code vars todo::rest) := .code hmark hvars hrest
      simp only [Option.map_some,cells_createAll,show (valued s).mem=() from rfl,copies_createAll]
      refine .stepped ?_ ?_
      · simp only [cells_argument,copies_argument,valued,List.map_cons,valuedLevel,map_view_tuple]
        rw [map_read_view,map_view_tuple,map_view_congr hvars.below hkept,
          map_valuedLevel_congr hrest fun c hc => hkept c (hc.trans_le hmark),List.map_id']
      · refine .loop (by rw [hlen]; exact Nat.le_add_right _ _) ?_ (fun _ => ⟨?_,?_⟩) hcode
        · intro x hx
          rw [hlen]
          exact (mem_tuple hx).2
        · exact fun x hx => (mem_tuple hx).1
        · refine List.pairwise_map.mpr (List.pairwise_map.mpr ?_)
          exact List.Pairwise.imp (fun hlt => hlt.ne) List.pairwise_lt_range'
  · exact .refused

/-- Running code does the same to its cells as to values of its own. -/
theorem commutes {o : Op η S F D α}
    (htyped : ∀ a∈o.arguments,a.converts=true → a.moved=false) :
    Commutes s vars rest todo o := by
  cases o with
  | create v => exact commutes_create hmark hvars hrest todo v
  | construct n moved => exact commutes_construct hmark hvars hrest todo n moved
  | assign n v => exact commutes_assign hmark hvars hrest todo n v
  | read n =>
    unfold Commutes
    simp only [Store.perform,getElem?_view]
    cases he : vars[n]? with
    | none => exact .refused
    | some e => exact .stepped rfl (.code hmark hvars hrest)
  | connect c m => exact .stepped rfl (.code hmark hvars hrest)
  | call c args => exact commutes_call hmark hvars hrest todo c htyped
  | send c args => exact commutes_send hmark hvars hrest todo c args
  | get c position => exact commutes_get hmark hvars hrest todo c position

end Operations

omit [DecidableEq S] [DecidableEq F] [DecidableEq D] in
/-- The result of a receive has the values its tuple had, and only the cells of
the tuple are emptied. -/
theorem returnMoved_handed {mem : Memory α} {mark : ℕ} {args : List Expr}
    (hmark : mark ≤ mem.length) (hcells : ∀ e∈args,e.cell < mem.length)
    (hown : ∀ e∈args,mark ≤ e.cell) (hapart : args.Pairwise fun e f => e.cell≠f.cell) :
    (returnMoved mem args).1.length=mem.length+args.length ∧
      (returnMoved mem args).2=(List.range' mem.length args.length).map Expr.own ∧
      (∀ c < mark,read (returnMoved mem args).1 c=read mem c) ∧
      (returnMoved mem args).2.map (view (returnMoved mem args).1)=
        (args.map (view mem)).map fun x => ⟨x.value,false⟩ := by
  have hmoves : args.Pairwise fun e f => e.moves=true → e.cell≠f.cell := by
    refine hapart.imp ?_
    intro e f hne _
    exact hne
  have hnew := map_read_constructAll hcells hmoves
  refine ⟨constructAll_length mem args,?_,fun c hc => ?_,?_⟩
  · rw [returnMoved,constructAll_cells]
  · refine read_constructAll_old (by omega) fun e he _ => ?_
    have hcell := hown e he
    omega
  · rw [returnMoved,map_view_own,hnew,List.map_map,List.map_map]
    rfl

/-- One step of the code is one step of the machine in which every subscriber
gets copies of its own; and the levels of the stack stay apart. -/
def Matches (byValue : η → Bool) (s : State (Memory α) Expr η S F D α) (a : Act η S F D α) :
    Prop :=
  Carries valued Apart (cells.next byValue s a) (copies.next byValue (valued s) a)

/-- Calling the subscriber at the position of the loop. -/
theorem matches_iterate (byValue : η → Bool) {s : State (Memory α) Expr η S F D α}
    {mark : ℕ} {c : Chan S F D} {it : ℕ} {args : List Expr} {atCall : List (Option α)}
    {source : Option (Entry α)} {rest : List (Level Expr η S F D α)}
    (hstack : s.stack=.loop c it args atCall source::rest) (hmark : mark ≤ s.mem.length)
    (hloop : Separated s.mem.length (.loop c it args atCall source::rest))
    (hargs : ∀ e∈args,e.cell < s.mem.length ∧ e.empties=false) (hrest : Separated mark rest) :
    Matches byValue s .iterate := by
  have hcells : ∀ e∈args,e.cell < s.mem.length := fun e he => (hargs e he).1
  have hcopy : (valued s).stack=.loop c it (args.map (view s.mem)) atCall source::
      rest.map (valuedLevel s.mem) := by
    rw [valued,hstack]
    rfl
  rw [Matches]
  simp only [Store.next,hstack,hcopy,show (valued s).registered=s.registered from rfl]
  cases hm : (s.registered c)[it]? with
  | none => exact .refused
  | some m =>
    obtain ⟨hkept,hshows,new,hnew,hle,howned⟩ :=
      iteration_handed (passing byValue c m) (decide (it+1=(s.registered c).length)) hargs
    simp only [Option.map_some,cells_call,copies_call]
    generalize iteration s.mem (passing byValue c m) _ args=made at hkept hshows hle howned ⊢
    have hlength : made.2.length=args.length := by
      have hsame := congrArg List.length hshows
      rwa [List.length_map,List.length_map] at hsame
    refine .stepped ?_ (.code hle howned (hloop.mono hnew))
    simp only [valued,List.map_cons,valuedLevel,map_read_view,hshows,hlength,List.map_map,
      List.length_map]
    rw [map_view_congr hcells hkept,
      map_valuedLevel_congr hrest fun c hc => hkept c (hc.trans_le hmark)]
    rfl

/-- Returning from a receive: its tuple is moved into the result. -/
theorem matches_leaves_receive (byValue : η → Bool) {s : State (Memory α) Expr η S F D α}
    {mark : ℕ} {c : Chan S F D} {it : ℕ} {args : List Expr} {atCall : List (Option α)}
    {e : Entry α} {vars : List Expr} {todo : Option (List (Op η S F D α))}
    {rest : List (Level Expr η S F D α)} (back : ℕ)
    (hstack : s.stack=.loop c it args atCall (some e)::.code vars todo::rest)
    (hmark : mark ≤ s.mem.length) (hcells : ∀ x∈args,x.cell < s.mem.length)
    (hown : ∀ x∈args,mark ≤ x.cell) (hapart : args.Pairwise fun x y => x.cell≠y.cell)
    (hcaller : Separated mark (.code vars todo::rest)) : Matches byValue s (.leaves back) := by
  have hcopy : (valued s).stack=.loop c it (args.map (view s.mem)) atCall (some e)::
      .code (vars.map (view s.mem)) todo::rest.map (valuedLevel s.mem) := by
    rw [valued,hstack]
    rfl
  obtain ⟨hlen,hnew,hkept,hshows⟩ := returnMoved_handed hmark hcells hown hapart
  rw [Matches]
  simp only [Store.next,hstack,hcopy,show (valued s).registered=s.registered from rfl,cells_result,
    copies_result]
  split
  · cases hcaller with
    | @code _ low _ _ _ hlow hvars hrest =>
      refine .stepped ?_ ?_
      · simp only [valued,List.map_cons,valuedLevel,map_read_view,List.map_append,hshows]
        rw [map_view_congr hvars.below hkept,
          map_valuedLevel_congr hrest fun c hc => hkept c (hc.trans_le hlow)]
      · rw [Apart,hlen,hnew]
        exact .code (by omega) (hvars.append_new hmark (by omega) _) hrest
  · exact .refused

/-- Every step without an rvalue of another type matches. -/
theorem next_matches (byValue : η → Bool) {s : State (Memory α) Expr η S F D α}
    {a : Act η S F D α} (hsep : Apart s) (htyped : Typed s a) : Matches byValue s a := by
  obtain ⟨mem,registered,queue,stack,shown,observed,returned⟩ := s
  rw [Apart] at hsep
  cases a with
  | op o =>
    cases hsep with
    | nil => exact .refused
    | loop => exact .refused
    | @code _ _ vars todo rest hmark hvars hrest =>
      cases todo with
      | none => exact commutes hmark hvars hrest none (htyped o rfl)
      | some todo => exact .refused
  | go =>
    cases hsep with
    | nil => exact .refused
    | loop => exact .refused
    | @code _ _ vars todo rest hmark hvars hrest =>
      cases todo with
      | none => exact .refused
      | some todo =>
        cases todo with
        | nil => exact .refused
        | cons o todo => exact commutes hmark hvars hrest (some todo) (htyped o rfl)
  | iterate =>
    cases hsep with
    | nil => exact .refused
    | code => exact .refused
    | loop hmark hargs hsource hrest =>
      exact matches_iterate byValue rfl hmark (.loop hmark hargs hsource hrest) hargs hrest
  | leaves back =>
    cases hsep with
    | nil => exact .refused
    | code => exact .refused
    | @loop _ _ c it args atCall source rest hmark hargs hsource hrest =>
      cases source with
      | none =>
        simp only [Matches,Store.next,valued,List.map_cons,valuedLevel]
        split
        · exact .stepped rfl (hrest.mono hmark)
        · exact .refused
      | some e =>
        obtain ⟨hown,hapart⟩ := hsource rfl
        cases hrest with
        | nil => exact .refused
        | loop => exact .refused
        | code hlow hvars hrest =>
          exact matches_leaves_receive byValue back rfl hmark (fun e he => (hargs e he).1) hown
            hapart (.code hlow hvars hrest)
  | returns =>
    cases hsep with
    | nil => exact .refused
    | loop => exact .refused
    | @code _ _ vars todo rest hmark hvars hrest =>
      cases hrest with
      | nil => exact .refused
      | code => exact .refused
      | loop hlow hcells hsource hrest =>
        simp only [Matches,Store.next,valued,List.map_cons,valuedLevel]
        split
        · exact .stepped rfl (Separated.mono (.loop hlow hcells hsource hrest) hmark)
        · exact .refused
  | throws =>
    cases hsep with
    | nil => exact .refused
    | loop => exact .refused
    | @code _ _ vars todo rest hmark hvars hrest =>
      cases hrest with
      | nil => exact .refused
      | code => exact .refused
      | loop hlow hcells hsource hrest =>
        exact .stepped rfl (hrest.mono (hlow.trans hmark))

omit [DecidableEq S] [DecidableEq F] [DecidableEq D] in
/-- Before anything happened no cell is known. -/
theorem apart_start : Apart (.start [] : State (Memory α) Expr η S F D α) :=
  .code le_rfl (.nil 0 0) (.nil 0)

omit [DecidableEq S] [DecidableEq F] [DecidableEq D] in
/-- What a step performs does not depend on how variables are kept. -/
theorem typed_valued (s : State (Memory α) Expr η S F D α) (a : Act η S F D α) :
    Typed (valued s) a ↔ Typed s a := by
  have hsame : performing (valued s) a=performing s a := by
    cases a with
    | go =>
      obtain ⟨mem,registered,queue,stack,shown,observed,returned⟩ := s
      cases stack with
      | nil => rfl
      | cons level rest =>
        cases level with
        | loop => rfl
        | code vars todo =>
          cases todo with
          | none => rfl
          | some todo => cases todo <;> rfl
    | op | iterate | leaves | returns | throws => rfl
  rw [Typed,Typed,hsame]

variable {byValue : η → Bool} {acts : List (Act η S F D α)}

/-- A run of the code is a run with copies. -/
theorem valued_reaches {s : State (Memory α) Expr η S F D α}
    (h : Reaches (cells.next byValue) Typed (.start []) acts s) :
    Reaches (copies.next byValue) Typed (.start ()) acts (valued s) :=
  (h.image_of_carries (f := valued) apart_start typed_valued fun hs ha =>
    next_matches byValue hs ha).2

/-- A run with copies is a run of the code. -/
theorem exists_valued {t : State Unit (Copy α) η S F D α}
    (h : Reaches (copies.next byValue) Typed (.start ()) acts t) :
    ∃ s,Reaches (cells.next byValue) Typed (.start []) acts s ∧ valued s=t := by
  have h' : Reaches (copies.next byValue) Typed (valued (.start [])) acts t := h
  obtain ⟨s,-,hs,hvalued⟩ := h'.exists_of_carries (f := valued) apart_start typed_valued
    fun hs ha => next_matches byValue hs ha
  exact ⟨s,hs,hvalued⟩

end FastEventSystem.ForwardRefinement
