import CLSmith.Facts.Assign
import CLSmith.Common.System
/-!
# Programs beside their facts

Programs of assignments and ifs run beside the facts computed for them: the
memory knows of every union through which of its fields it was written last,
and what the pointers hold.
-/

namespace CLSmith

namespace Facts

open Common

/-! ## Programs -/

mutual

/-- **A statement**: an assignment or an if, whose test writes nothing. Which way the
test goes is open, as the facts do not depend on it. -/
inductive Stm (N : Type)
  | assign (lhs : Lhs N) (rhs : Expr N)
  | ifElse (ifTrue ifFalse : Block N)

inductive Block (N : Type)
  | nil
  | cons (s : Stm N) (rest : Block N)

end

/-- What is still to run: a statement, or the end of a branch, where the facts
of the other one are merged in. -/
inductive Item (N : Type)
  | stm (s : Stm N)
  | endTrue (inputs_false : FactVec (Variable N))
  | endFalse (inputs_true : FactVec (Variable N))

/-- The statements of a block. -/
def Block.items {N : Type} : Block N → List (Item N)
  | nil => []
  | cons s rest => .stm s :: rest.items

section Visit

variable {N : Type} [DecidableEq N] (D : N → Decl)

mutual

/-- **`visit_facts`** of an assignment, and of an if. The facts behind an if are those
of both branches, merged. -/
def Stm.visitFacts : Stm N → FactVec (Variable N) → FactVec (Variable N)
  | .assign lhs rhs, inputs => updateFactForAssign D lhs rhs inputs
  | .ifElse ifTrue ifFalse, inputs =>
    (mergeFacts (ifTrue.visitFacts inputs) (ifFalse.visitFacts inputs)).1

def Block.visitFacts : Block N → FactVec (Variable N) → FactVec (Variable N)
  | .nil, inputs => inputs
  | .cons s rest, inputs => rest.visitFacts (s.visitFacts inputs)

end

/-- The facts once all that is to run is visited. -/
def finish : List (Item N) → FactVec (Variable N) → FactVec (Variable N)
  | [], facts => facts
  | .stm s :: todo, facts => finish todo (s.visitFacts D facts)
  | .endTrue inputs_false :: todo, facts => finish todo (mergeFacts facts inputs_false).1
  | .endFalse inputs_true :: todo, facts => finish todo (mergeFacts inputs_true facts).1

end Visit

/-! ## Memory -/

/-- **A cell**: a field of an element of a variable; one that is no array has
element 0 alone. -/
structure Cell (N : Type) where
  name : N
  elem : ℕ
  path : List ℕ

/-- The variable that stands for a cell, an element's being its array's. -/
def Cell.var {N : Type} (c : Cell N) : Variable N := .named c.name c.path

/-- The field of the outermost aggregate. -/
def topField (path : List ℕ) : ℕ := path.getLastD 0

/-- **The memory**: through which field each union was written last, and what
the pointers hold. -/
structure Memory (N : Type) where
  written : N → ℕ → ℕ
  pointer : Cell N → Option (Cell N)

section Semantics

variable {N : Type} (D : N → Decl) (mem mem' : Memory N)

/-- The element is one of the variable's. -/
def IsElem (n : N) (e : ℕ) : Prop := (D n).isArray = false → e = 0

/-- The cell a variable is after so many dereferences. -/
def Denotes (v : Variable N) : ℕ → Cell N → Prop
  | 0, c => v = c.var ∧ IsElem D c.name c.elem
  | k + 1, c => ∃ b, Denotes v k b ∧ mem.pointer b = some c

/-- The field through which the value of a right side was written. -/
inductive ReadsField : Expr N → ℕ → Prop
  -- a constant initialises the first field
  | constant (t : Ty) (z f : Bool) : ReadsField (.constant t z f) 0
  | var (v : Variable N) (t : Ty) (c : Cell N)
      (h : Denotes D mem v ((v.type D).indirectLevel - t.indirectLevel) c)
      (hpath : c.path = []) (helem : IsElem D c.name c.elem) (hu : (D c.name).type.isUnion) :
      ReadsField (.var v t) (mem.written c.name c.elem)
  | comma (l r : Expr N) (i : ℕ) (h : ReadsField r i) : ReadsField (.comma l r) i

/-- What a right side makes a pointer hold. -/
inductive PointsTo : Expr N → Option (Cell N) → Prop
  | constant (t : Ty) (z f : Bool) : PointsTo (.constant t z f) none
  | address (v : Variable N) (t : Ty) (c : Cell N)
      (hlt : (v.type D).indirectLevel < t.indirectLevel) (h : Denotes D mem v 0 c) :
      PointsTo (.var v t) (some c)
  | var (v : Variable N) (t : Ty) (c : Cell N)
      (hle : t.indirectLevel ≤ (v.type D).indirectLevel)
      (h : Denotes D mem v ((v.type D).indirectLevel - t.indirectLevel) c) :
      PointsTo (.var v t) (mem.pointer c)
  | comma (l r : Expr N) (p : Option (Cell N)) (h : PointsTo r p) : PointsTo (.comma l r) p

/-- **An assignment writes a cell.** Of the pointers in one object with it
only that is said which is assigned. -/
structure Writes (lhs : Lhs N) (rhs : Expr N) (c : Cell N) : Prop where
  target : Denotes D mem lhs.var ((lhs.var.type D).indirectLevel - lhs.type.indirectLevel) c
  isElem : IsElem D c.name c.elem
  type : typeAt D c.name c.path = lhs.type
  /-- A union takes the field of the value, a field in one is the field. -/
  written : (D c.name).type.isUnion →
    if c.path = [] then ReadsField D mem rhs (mem'.written c.name c.elem)
    else mem'.written c.name c.elem = topField c.path
  others : ∀ n e, n ≠ c.name ∨ e ≠ c.elem → mem'.written n e = mem.written n e
  pointer : lhs.type.isPointer → PointsTo D mem rhs (mem'.pointer c)
  pointers : ∀ b : Cell N, b.name ≠ c.name ∨ b.elem ≠ c.elem → mem'.pointer b = mem.pointer b

end Semantics

/-! ## Runs -/

/-- **A state**: what is to run, the facts at the point and the memory. The facts go
along with the run, so that what they say can be compared with what is there. -/
structure State (N : Type) where
  todo : List (Item N)
  facts : FactVec (Variable N)
  mem : Memory N

section Runs

variable {N : Type} [DecidableEq N] (D : N → Decl)

/-- One step, in which an assignment and the cell it writes are as `ok` asks. -/
inductive Step (ok : FactVec (Variable N) → Memory N → Lhs N → Expr N → Cell N → Prop) :
    State N → State N → Prop
  | assign (lhs : Lhs N) (rhs : Expr N) (c : Cell N) (todo : List (Item N))
      (facts : FactVec (Variable N)) (mem mem' : Memory N) (hok : ok facts mem lhs rhs c)
      (h : Writes D mem mem' lhs rhs c) :
      Step ok ⟨.stm (.assign lhs rhs) :: todo, facts, mem⟩
        ⟨todo, updateFactForAssign D lhs rhs facts, mem'⟩
  | ifTrue (ifTrue ifFalse : Block N) (todo : List (Item N)) (facts : FactVec (Variable N))
      (mem : Memory N) :
      Step ok ⟨.stm (.ifElse ifTrue ifFalse) :: todo, facts, mem⟩
        ⟨ifTrue.items ++ .endTrue (ifFalse.visitFacts D facts) :: todo, facts, mem⟩
  | ifFalse (ifTrue ifFalse : Block N) (todo : List (Item N)) (facts : FactVec (Variable N))
      (mem : Memory N) :
      Step ok ⟨.stm (.ifElse ifTrue ifFalse) :: todo, facts, mem⟩
        ⟨ifFalse.items ++ .endFalse (ifTrue.visitFacts D facts) :: todo, facts, mem⟩
  | endTrue (inputs_false : FactVec (Variable N)) (todo : List (Item N))
      (facts : FactVec (Variable N)) (mem : Memory N) :
      Step ok ⟨.endTrue inputs_false :: todo, facts, mem⟩
        ⟨todo, (mergeFacts facts inputs_false).1, mem⟩
  | endFalse (inputs_true : FactVec (Variable N)) (todo : List (Item N))
      (facts : FactVec (Variable N)) (mem : Memory N) :
      Step ok ⟨.endFalse inputs_true :: todo, facts, mem⟩
        ⟨todo, (mergeFacts inputs_true facts).1, mem⟩

/-- **The runs of a program** from facts and a memory. An assignment is made only
where `ok` lets it, given the facts and the memory at the point. -/
def runs (ok : FactVec (Variable N) → Memory N → Lhs N → Expr N → Cell N → Prop)
    (program : Block N) (facts : FactVec (Variable N)) (mem : Memory N) : System (State N) where
  Init s := s = ⟨program.items, facts, mem⟩
  Step := Step D ok

/-- **Every union has a fact, and one that names a field is right** of all its
elements. -/
def Describes (facts : FactVec (Variable N)) (mem : Memory N) : Prop :=
  ∀ n, (D n).type.isUnion → ∃ k, FactUnion.lastWrittenFid facts (.named n []) = some k ∧
    (k ≠ bottom → ∀ e, IsElem D n e → (mem.written n e : ℤ) = k)

/-- **What can be read was written last**: a field of a union that
`is_nonreadable_field` lets through is in the field last written. -/
def ReadsLastWritten (facts : FactVec (Variable N)) (mem : Memory N) : Prop :=
  ∀ n e path, (D n).type.isUnion → path ≠ [] → IsElem D n e →
    FactUnion.isNonreadableField D facts (.named n path) = false →
    mem.written n e = topField path

/-- **Unions stand alone**: none is in a struct or a union, as the types are
made. -/
def TopUnions : Prop := ∀ n path, path ≠ [] → (typeAt D n path).isUnion = false

/-- A variable of which `abstract_fact_for_assign` draws a fact about the
union `n`. -/
def Marks (n : N) (v : Variable N) : Prop :=
  ∃ path, v = .named n path ∧ v.isInsideUnionField D ∧
    (v.isUnionField D ∨ (v.type D).hasPadding ∨ v.isPackedAfterBitfield D)

/-- The unions a right side reads are among those the facts name. -/
def SourceNamed (facts : FactVec (Variable N)) (mem : Memory N) : Expr N → Prop
  | .var v t => ∀ c, Denotes D mem v ((v.type D).indirectLevel - t.indirectLevel) c →
    c.var ∈ mergePointeesOfPointer facts v ((v.type D).indirectLevel - t.indirectLevel)
  | .comma _ rhs => SourceNamed facts mem rhs
  | _ => True

/-- The points-to facts are right of an assignment: what it writes, and the
union it reads, are among the variables they name once `FactPointTo` has
updated them. -/
structure Named (facts : FactVec (Variable N)) (mem : Memory N) (lhs : Lhs N) (rhs : Expr N)
    (c : Cell N) : Prop where
  target : c.var ∈ lhs.getLvars D (pointToUpdated D lhs rhs facts)
  source : lhs.type.isUnion → SourceNamed D (pointToUpdated D lhs rhs facts) mem rhs

/-- **The condition** on an assignment besides: a write inside a field of a
union is noticed, or the facts before it do not name another field. -/
structure Noticed (facts : FactVec (Variable N)) (mem : Memory N) (lhs : Lhs N) (rhs : Expr N)
    (c : Cell N) : Prop extends Named D facts mem lhs rhs c where
  nested : (D c.name).type.isUnion → c.path ≠ [] →
    (∃ v ∈ lhs.getLvars D (pointToUpdated D lhs rhs facts), Marks D c.name v) ∨
      ∀ k, FactUnion.lastWrittenFid facts (.named c.name []) = some k →
        k = bottom ∨ k = topField c.path

end Runs

end Facts

end CLSmith
