import Mathlib.Data.List.Forall2
import Mathlib.Data.List.Range

/-!
# Objects which can be moved from

Memory is a list of cells; a cell without a value is an object which was moved
from. An expression names a cell and has a value category: it is const or not,
an lvalue or an rvalue. Constructing a new object from an expression always
takes the value found there, and empties the cell only when the expression is
an rvalue and not const. A parameter which is a const reference is bound to the
object itself; when the object has another type, a temporary is constructed
from the expression and the reference is bound to it. A conversion keeps the
value. New objects are put at the end of the memory, so a bound on the cells
somebody knows is a frame condition for everything made later. Nothing below
mentions a particular program.
-/

namespace FastEventSystem.MoveCells

variable {α : Type*}

/-- All objects; an object which was moved from has no value. -/
abbrev Memory (α : Type*) := List (Option α)

/-- The value of an object. -/
def read (mem : Memory α) (cell : ℕ) : Option α := mem[cell]?.join

/-- An expression naming an object, with its value category. -/
structure Expr where
  /-- The object. -/
  cell : ℕ
  /-- The object may not be changed through this expression. -/
  const : Bool
  /-- Whether the expression is an rvalue. -/
  rvalue : Bool
  /-- Whether the object has another type than the parameter it is meant for. -/
  converts : Bool
  deriving DecidableEq

/-- A variable of the running code. -/
def Expr.own (cell : ℕ) : Expr := ⟨cell,false,false,false⟩

/-- The name of a reference or of a variable is an lvalue. -/
def Expr.named (e : Expr) : Expr := {e with rvalue := false}

/-- `std::move`: a cast to an rvalue, or nothing. -/
def Expr.cast (e : Expr) (moved : Bool) : Expr := {e with rvalue := moved}

/-- A const reference to the object. -/
def Expr.bound (e : Expr) : Expr := ⟨e.cell,true,false,false⟩

/-- Constructing from the expression calls the move constructor. -/
def Expr.moves (e : Expr) : Bool := e.rvalue && !e.const

/-- Converting the expression to the type of its parameter empties the object. -/
def Expr.empties (e : Expr) : Bool := e.converts && e.moves

/-- Construct an object from an expression: the new memory and the new object. -/
def construct (mem : Memory α) (e : Expr) : Memory α×ℕ :=
  ((if e.moves=true then mem.set e.cell none else mem)++[read mem e.cell],mem.length)

/-- Construct one object from each expression, in their order. -/
def constructAll : Memory α → List Expr → Memory α×List ℕ
  | mem,[] => (mem,[])
  | mem,e::es =>
    let first := construct mem e
    let others := constructAll first.1 es
    (others.1,first.2::others.2)

/-- Bind a parameter of type const reference to an expression, by way of a
temporary if the type is another one. -/
def bindRef (mem : Memory α) (e : Expr) : Memory α×Expr :=
  if e.converts=true then
    let temporary := construct mem e
    (temporary.1,(Expr.own temporary.2).bound)
  else (mem,e.bound)

/-- Bind one parameter to each expression, in their order. -/
def bindAll : Memory α → List Expr → Memory α×List Expr
  | mem,[] => (mem,[])
  | mem,e::es =>
    let first := bindRef mem e
    let others := bindAll first.1 es
    (others.1,first.2::others.2)

/-- A new object does not change the old ones. -/
theorem read_append {mem : Memory α} {c : ℕ} (h : c < mem.length) (more : Memory α) :
    read (mem++more) c=read mem c := by
  rw [read,read,List.getElem?_append_left h]

/-- The newest object has the value it was made from. -/
theorem read_length (mem : Memory α) (v : Option α) : read (mem++[v]) mem.length=v := by
  rw [read,List.getElem?_concat_length]
  rfl

/-- New objects in a row have the values they were made from. -/
theorem map_read_range (mem more : Memory α) :
    (List.range' mem.length more.length).map (read (mem++more))=more := by
  induction more generalizing mem with
  | nil => rfl
  | cons v more ih =>
    have hlen : (mem++[v]).length=mem.length+1 := List.length_append
    have hfirst : read (mem++v::more) mem.length=v := by
      rw [←List.singleton_append,←List.append_assoc,read_append (by omega),read_length]
    have hothers := ih (mem++[v])
    rw [hlen,List.append_assoc,List.singleton_append] at hothers
    rw [List.length_cons,List.range'_succ,List.map_cons,hfirst,hothers]

/-- Writing an object does not change the others. -/
theorem read_set_of_ne {mem : Memory α} {c d : ℕ} (h : d≠c) (v : Option α) :
    read (mem.set d v) c=read mem c := by
  rw [read,read,List.getElem?_set_ne h]

/-- Writing an object gives it the value. -/
theorem read_set_self {mem : Memory α} {c : ℕ} (h : c < mem.length) (v : Option α) :
    read (mem.set c v) c=v := by
  rw [read,List.getElem?_set_self h]
  rfl

/-- A construction adds one object. -/
theorem construct_length (mem : Memory α) (e : Expr) :
    (construct mem e).1.length=mem.length+1 := by
  rw [construct]
  split
  · rw [List.length_append,List.length_set,List.length_singleton]
  · rw [List.length_append,List.length_singleton]

/-- The new object has the value found before the construction. -/
theorem read_construct_new (mem : Memory α) (e : Expr) :
    read (construct mem e).1 mem.length=read mem e.cell := by
  rw [construct]
  dsimp only
  split
  · have hlen : (mem.set e.cell none).length=mem.length := List.length_set
    rw [←hlen]
    exact read_length _ _
  · exact read_length _ _

/-- An old object keeps its value unless it is the one moved from. -/
theorem read_construct_old {mem : Memory α} {e : Expr} {c : ℕ} (h : c < mem.length)
    (hmoves : e.moves=true → e.cell≠c) : read (construct mem e).1 c=read mem c := by
  rw [construct]
  dsimp only
  split
  · rename_i hm
    rw [read_append (by rw [List.length_set]; exact h),read_set_of_ne (hmoves hm)]
  · exact read_append h _

/-- Constructions add one object for each expression. -/
theorem constructAll_length (mem : Memory α) (es : List Expr) :
    (constructAll mem es).1.length=mem.length+es.length := by
  induction es generalizing mem with
  | nil => rfl
  | cons e es ih =>
    rw [constructAll,ih,construct_length,List.length_cons]
    omega

/-- The new objects stand in a row after the old ones. -/
theorem constructAll_cells (mem : Memory α) (es : List Expr) :
    (constructAll mem es).2=List.range' mem.length es.length := by
  induction es generalizing mem with
  | nil => rfl
  | cons e es ih =>
    rw [constructAll,ih,construct_length,List.length_cons,List.range'_succ]
    rfl

/-- Old objects which no expression moves from keep their values. -/
theorem read_constructAll_old {mem : Memory α} {es : List Expr} {c : ℕ} (h : c < mem.length)
    (hmoves : ∀ e∈es,e.moves=true → e.cell≠c) : read (constructAll mem es).1 c=read mem c := by
  induction es generalizing mem with
  | nil => rfl
  | cons e es ih =>
    obtain ⟨hfirst,hothers⟩ := List.forall_mem_cons.mp hmoves
    have hlt : c < (construct mem e).1.length := by
      rw [construct_length]
      omega
    rw [constructAll,ih hlt hothers,read_construct_old h hfirst]

/-- Each new object has the value of its expression, when no expression moves
from an object which a later one names. -/
theorem map_read_constructAll {mem : Memory α} {es : List Expr}
    (hlt : ∀ e∈es,e.cell < mem.length)
    (hapart : es.Pairwise fun e f => e.moves=true → e.cell≠f.cell) :
    (constructAll mem es).2.map (read (constructAll mem es).1)=
      es.map fun e => read mem e.cell := by
  induction es generalizing mem with
  | nil => rfl
  | cons e es ih =>
    obtain ⟨hfirst,hothers⟩ := List.pairwise_cons.mp hapart
    obtain ⟨-,hcells⟩ := List.forall_mem_cons.mp hlt
    have hlen := construct_length mem e
    have hcells' : ∀ f∈es,f.cell < (construct mem e).1.length := by
      intro f hf
      have hcell := hcells f hf
      omega
    have hnew := ih hcells' hothers
    have hhead : read (constructAll (construct mem e).1 es).1 mem.length=read mem e.cell := by
      rw [read_constructAll_old (by omega) fun f hf _ => (hcells f hf).ne,read_construct_new]
    have htail : es.map (fun f => read (construct mem e).1 f.cell)=
        es.map fun f => read mem f.cell :=
      List.map_congr_left fun f hf => read_construct_old (hcells f hf) (hfirst f hf)
    rw [constructAll,List.map_cons,List.map_cons,←htail,←hnew]
    exact congrArg (·::_) hhead

/-- Objects made from expressions which do not move are copies, and nothing
older changes. -/
theorem constructAll_copies {mem : Memory α} {es : List Expr}
    (hcells : ∀ e∈es,e.cell < mem.length) (hstay : ∀ e∈es,e.moves=false) :
    (∀ c < mem.length,read (constructAll mem es).1 c=read mem c) ∧
      (constructAll mem es).2.map (read (constructAll mem es).1)=
        es.map fun e => read mem e.cell := by
  have hnever : ∀ e∈es,∀ c,e.moves=true → e.cell≠c := by
    intro e he c hmoves
    rw [hstay e he] at hmoves
    cases hmoves
  constructor
  · exact fun c hc => read_constructAll_old hc fun e he => hnever e he c
  · refine map_read_constructAll hcells (List.pairwise_of_forall_mem_list ?_)
    exact fun e he f _ => hnever e he f.cell

/-- A bound parameter names an object there is, by const reference, and no
object disappears. -/
theorem bindRef_cell {mem : Memory α} {e : Expr} (h : e.cell < mem.length) :
    (bindRef mem e).2.cell < (bindRef mem e).1.length ∧ (bindRef mem e).2.const=true ∧
      mem.length ≤ (bindRef mem e).1.length := by
  rw [bindRef]
  split
  · have hlen := construct_length mem e
    exact ⟨(Nat.lt_succ_self mem.length).trans_eq hlen.symm,rfl,
      (Nat.le_succ mem.length).trans_eq hlen.symm⟩
  · exact ⟨h,rfl,le_rfl⟩

/-- Binding a parameter empties an old object only by a conversion. -/
theorem read_bindRef_old {mem : Memory α} {e : Expr} {c : ℕ} (h : c < mem.length)
    (hempties : e.empties=true → e.cell≠c) : read (bindRef mem e).1 c=read mem c := by
  rw [bindRef]
  split
  · rename_i hconverts
    refine read_construct_old h fun hmoves => hempties ?_
    rw [Expr.empties,hconverts,hmoves]
    rfl
  · rfl

/-- A bound parameter has the value of its expression. -/
theorem read_bindRef_new (mem : Memory α) (e : Expr) :
    read (bindRef mem e).1 (bindRef mem e).2.cell=read mem e.cell := by
  rw [bindRef]
  split
  · exact read_construct_new mem e
  · rfl

/-- Bound parameters name objects there are, by const reference. -/
theorem bindAll_cells {mem : Memory α} {es : List Expr} (h : ∀ e∈es,e.cell < mem.length) :
    (∀ e∈(bindAll mem es).2,e.cell < (bindAll mem es).1.length ∧ e.const=true) ∧
      mem.length ≤ (bindAll mem es).1.length := by
  induction es generalizing mem with
  | nil => exact ⟨fun e he => False.elim (List.not_mem_nil he),le_rfl⟩
  | cons e es ih =>
    obtain ⟨hhead,htail⟩ := List.forall_mem_cons.mp h
    obtain ⟨hcell,hconst,hgrows⟩ := bindRef_cell hhead
    obtain ⟨hcells,hmore⟩ := ih fun f hf => (htail f hf).trans_le hgrows
    refine ⟨List.forall_mem_cons.mpr ⟨⟨?_,hconst⟩,hcells⟩,hgrows.trans hmore⟩
    exact hcell.trans_le hmore

/-- Old objects which no conversion moves from keep their values. -/
theorem read_bindAll_old {mem : Memory α} {es : List Expr} {c : ℕ}
    (hcells : ∀ e∈es,e.cell < mem.length) (h : c < mem.length)
    (hempties : ∀ e∈es,e.empties=true → e.cell≠c) : read (bindAll mem es).1 c=read mem c := by
  induction es generalizing mem with
  | nil => rfl
  | cons e es ih =>
    obtain ⟨hhead,htail⟩ := List.forall_mem_cons.mp hcells
    obtain ⟨hfirst,hothers⟩ := List.forall_mem_cons.mp hempties
    obtain ⟨-,-,hgrows⟩ := bindRef_cell hhead
    have hrest := ih (fun f hf => (htail f hf).trans_le hgrows) (h.trans_le hgrows) hothers
    rw [bindAll,hrest,read_bindRef_old h hfirst]

/-- Each bound parameter has the value of its expression, when no conversion
moves from an object which another expression names. -/
theorem map_read_bindAll {mem : Memory α} {es : List Expr}
    (hcells : ∀ e∈es,e.cell < mem.length)
    (hapart : es.Pairwise fun e f => e.empties=true ∨ f.empties=true → e.cell≠f.cell) :
    (bindAll mem es).2.map (fun e => read (bindAll mem es).1 e.cell)=
      es.map fun e => read mem e.cell := by
  induction es generalizing mem with
  | nil => rfl
  | cons e es ih =>
    obtain ⟨hfirst,hothers⟩ := List.pairwise_cons.mp hapart
    obtain ⟨hhead,htail⟩ := List.forall_mem_cons.mp hcells
    obtain ⟨hcell,-,hgrows⟩ := bindRef_cell hhead
    have hcells' : ∀ f∈es,f.cell < (bindRef mem e).1.length :=
      fun f hf => (htail f hf).trans_le hgrows
    -- A temporary is newer than all others; the object itself is not moved from.
    have hkept : read (bindAll (bindRef mem e).1 es).1 (bindRef mem e).2.cell=
        read (bindRef mem e).1 (bindRef mem e).2.cell := by
      refine read_bindAll_old hcells' hcell fun f hf hmoves => ?_
      have hother := (hfirst f hf (.inr hmoves)).symm
      have hold := htail f hf
      rw [bindRef]
      split
      · exact hold.ne
      · exact hother
    have hrest : es.map (fun f => read (bindRef mem e).1 f.cell)=
        es.map fun f => read mem f.cell :=
      List.map_congr_left fun f hf => read_bindRef_old (htail f hf) fun hmoves =>
        hfirst f hf (.inl hmoves)
    rw [bindAll,List.map_cons,List.map_cons,hkept,read_bindRef_new,←hrest,←ih hcells' hothers]

end FastEventSystem.MoveCells
