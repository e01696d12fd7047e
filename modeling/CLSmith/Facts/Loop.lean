import CLSmith.Common.Flow
import CLSmith.Facts.Assign
/-!
# The analysis of a loop body

`Block::find_fixed_point` and the visits of the statements in a body, with the
environments that are stored for each of them and the shortcuts that read them:
for bodies of assignments between pointers and integers, ifs and continues. No
such statement fails, the blocks have no variables of their own and effects are
left out.
-/

namespace CLSmith

namespace Facts

namespace Loop

open Common

/-! ## Statements -/

/-- **An assignment** between variables: of a pointer from another, an address or a
constant, or of an integer. -/
inductive Assign (N : Type)
  | copy (p q : N)
  | address (p : N) (x : Variable N)
  | constant (p : N) (zero : Bool)
  | integer (i : N) (rhs : Expr N)

mutual

/-- **A statement**, known by a number, as are the blocks in it. The maps of the fact
manager are kept by these numbers. -/
inductive Stm (N : Type)
  | assign (id : ℕ) (a : Assign N)
  | ifElse (id trueId falseId : ℕ) (ifTrue ifFalse : Stms N)
  | cont (id : ℕ)

inductive Stms (N : Type)
  | nil
  | cons (s : Stm N) (rest : Stms N)

end

namespace Assign

variable {N : Type} (D : N → Decl)

/-- The left side. -/
def lhs : Assign N → Lhs N
  | copy p _ => ⟨.named p [], (D p).type⟩
  | address p _ => ⟨.named p [], (D p).type⟩
  | constant p _ => ⟨.named p [], (D p).type⟩
  | integer i _ => ⟨.named i [], (D i).type⟩

/-- The right side. -/
def rhs : Assign N → Expr N
  | copy _ q => .var (.named q []) (D q).type
  | address _ x => .var x (.pointer (x.type D))
  | constant p zero => .constant (D p).type zero false
  | integer _ rhs => rhs

/-- The pointers in it. -/
def pointers : Assign N → List N
  | copy p q => [p, q]
  | address p _ => [p]
  | constant p _ => [p]
  | integer _ _ => []

/-- What is a pointer is one, and no array, and an integer is one. -/
def Ok : Assign N → Prop
  | copy p q => (D p).type.isPointer ∧ (D p).isArray = false ∧ (D q).type.isPointer
  | address p _ => (D p).type.isPointer ∧ (D p).isArray = false
  | constant p _ => (D p).type.isPointer ∧ (D p).isArray = false
  | integer i _ => ∃ size, (D i).type = .simple size

end Assign

section Syntax

variable {N : Type}

/-- The number of a statement. -/
def Stm.id : Stm N → ℕ
  | assign id _ => id
  | ifElse id _ _ _ _ => id
  | cont id => id

/-- `is_ctrl_stmt`. -/
def Stm.isCtrlStmt : Stm N → Bool
  | cont _ => true
  | _ => false

mutual

/-- The numbers of a statement and of what is in it. -/
def Stm.ids : Stm N → List ℕ
  | .assign id _ => [id]
  | .ifElse id trueId falseId ifTrue ifFalse =>
    id :: trueId :: falseId :: (ifTrue.ids ++ ifFalse.ids)
  | .cont id => [id]

def Stms.ids : Stms N → List ℕ
  | .nil => []
  | .cons s rest => s.ids ++ rest.ids

end

mutual

/-- The continues. -/
def Stm.continues : Stm N → List ℕ
  | .assign _ _ => []
  | .ifElse _ _ _ ifTrue ifFalse => ifTrue.continues ++ ifFalse.continues
  | .cont id => [id]

def Stms.continues : Stms N → List ℕ
  | .nil => []
  | .cons s rest => s.continues ++ rest.continues

end

mutual

def Stm.pointers : Stm N → List N
  | .assign _ a => a.pointers
  | .ifElse _ _ _ ifTrue ifFalse => ifTrue.pointers ++ ifFalse.pointers
  | .cont _ => []

def Stms.pointers : Stms N → List N
  | .nil => []
  | .cons s rest => s.pointers ++ rest.pointers

end

mutual

def Stm.Ok (D : N → Decl) : Stm N → Prop
  | .assign _ a => a.Ok D
  | .ifElse _ _ _ ifTrue ifFalse => ifTrue.Ok D ∧ ifFalse.Ok D
  | .cont _ => True

def Stms.Ok (D : N → Decl) : Stms N → Prop
  | .nil => True
  | .cons s rest => s.Ok D ∧ rest.Ok D

end

end Syntax

/-- **The body of a loop**: its assignments are between pointers and integers,
and no number is there twice. -/
structure Body {N : Type} (D : N → Decl) where
  id : ℕ
  stms : Stms N
  ok : stms.Ok D
  nodup : (id :: stms.ids).Nodup

/-- The statements with a back edge to the body: its continues, and the tail of
the body itself, which a continue may not be reached at. -/
def Body.backEdges {N : Type} {D : N → Decl} (body : Body D) : List ℕ :=
  match body.stms with
  | .nil => []
  | .cons _ _ => body.stms.continues ++ [body.id]

/-! ## Visits -/

/-- **What `FactMgr` stores**: the environments before and after a statement or
a block, and whether it was visited. -/
structure FactMgr (N : Type) where
  mapFactsIn : ℕ → FactVec (Variable N)
  mapFactsOut : ℕ → FactVec (Variable N)
  mapVisited : ℕ → Bool

/-- Nothing is stored. -/
def FactMgr.empty {N : Type} : FactMgr N := ⟨fun _ => [], fun _ => [], fun _ => false⟩

/-- `set_fact_in` and `set_fact_out` after a visit. -/
def FactMgr.record {N : Type} (fm : FactMgr N) (id : ℕ) (inputs outputs : FactVec (Variable N)) :
    FactMgr N :=
  ⟨Function.update fm.mapFactsIn id inputs, Function.update fm.mapFactsOut id outputs,
    Function.update fm.mapVisited id true⟩

section Visit

variable {N : Type} [DecidableEq N]

/-- The outputs of back edges, merged into the inputs. -/
def mergeEdges (fm : FactMgr N) : List ℕ → FactVec (Variable N) → FactVec (Variable N)
  | [], inputs => inputs
  | src :: edges, inputs => mergeEdges fm edges (mergeFacts inputs (fm.mapFactsOut src)).1

/-- A visit: the outputs, and what is stored then, unless an assertion fails. -/
abbrev Visit (N : Type) :=
  FactVec (Variable N) → FactMgr N → Option (FactVec (Variable N) × FactMgr N)

/-- The loop of `find_fixed_point` for a block that was visited: so many rounds
are left before `cnt++ > 7`. -/
def rounds (id : ℕ) (edges : List ℕ) (visit : Visit N) :
    ℕ → Bool → FactVec (Variable N) → FactMgr N → Option (FactMgr N)
  | 0, _, _, _ => none
  | left + 1, visitOnce, inputs, fm =>
    let inputs := mergeEdges fm edges inputs
    if !visitOnce && sameFacts inputs (fm.mapFactsIn id) then some fm
    else do
      let (outputs, fm) ← visit inputs fm
      rounds id edges visit left false inputs (fm.record id inputs outputs)

/-- **`find_fixed_point`** of a block with the sources of back edges to it; a
first visit is not counted. -/
def findFixedPoint (id : ℕ) (edges : List ℕ) (visit : Visit N) (visitOnce : Bool)
    (inputs : FactVec (Variable N)) (fm : FactMgr N) : Option (FactMgr N) :=
  if fm.mapVisited id then rounds id edges visit 8 visitOnce inputs fm
  else if !visitOnce && sameFacts inputs (fm.mapFactsIn id) then some fm
  else do
    let (outputs, fm) ← visit inputs fm
    rounds id edges visit 8 false inputs (fm.record id inputs outputs)

variable (D : N → Decl)

/-- **`validate_and_update_facts`**, by what `visit_facts` does. A statement that was
visited with the same facts is not visited again. -/
def validate (s : Stm N) (visitFacts : Visit N) : Visit N := fun inputs fm =>
  if !s.isCtrlStmt && sameFacts inputs (fm.mapFactsIn s.id) then some (fm.mapFactsOut s.id, fm)
  else do
    let (outputs, fm) ← visitFacts inputs fm
    return (outputs, fm.record s.id inputs outputs)

mutual

/-- `visit_facts`. -/
def Stm.visitFacts : Stm N → Visit N
  | .assign _ a => fun inputs fm => some (updateFactForAssign D (a.lhs D) (a.rhs D) inputs, fm)
  | .ifElse _ trueId falseId ifTrue ifFalse => fun inputs fm => do
    let fm ← findFixedPoint trueId [] ifTrue.visit false inputs fm
    let inputs_true := fm.mapFactsOut trueId
    let fm ← findFixedPoint falseId [] ifFalse.visit false inputs fm
    let inputs_false := fm.mapFactsOut falseId
    return ((mergeFacts inputs_true inputs_false).1, fm)
  | .cont _ => fun inputs fm => some (inputs, fm)

/-- The statements of a block, one after another. -/
def Stms.visit : Stms N → Visit N
  | .nil => fun inputs fm => some (inputs, fm)
  | .cons s rest => fun inputs fm => do
    let (outputs, fm) ← validate s s.visitFacts inputs fm
    rest.visit outputs fm

end

variable {D}

/-- **The analysis of a loop body** as it was generated, or as it is visited
later. -/
def Body.findFixedPoint (body : Body D) (visitOnce : Bool) (inputs : FactVec (Variable N))
    (fm : FactMgr N) : Option (FactMgr N) :=
  Loop.findFixedPoint body.id body.backEdges (body.stms.visit D) visitOnce inputs fm

/-- **The fixed point is reached**: the analysis returns, and the stored input
of the body is closed under the stored outputs of the back edges. -/
def Body.Settles (body : Body D) (visitOnce : Bool) (inputs : FactVec (Variable N))
    (fm : FactMgr N) : Prop :=
  ∃ fm', body.findFixedPoint visitOnce inputs fm = some fm' ∧ ∀ src ∈ body.backEdges,
    (mergeFacts (fm'.mapFactsIn body.id) (fm'.mapFactsOut src)).2 = false

end Visit

/-! ## Flows -/

section Flows

variable {N : Type}

/-- What a pointer is assigned. -/
def Assign.flow : Assign N → Flow N (Variable N)
  | copy p q => Flow.assign p (.old q)
  | address p x => Flow.assign p (.new x)
  | constant p zero => Flow.assign p (.new (if zero then .null else .garbage))
  | integer _ _ => Flow.skip

mutual

/-- From the start of a statement to its end. -/
def Stm.flow : Stm N → Flow N (Variable N)
  | .assign _ a => a.flow
  | .ifElse _ _ _ ifTrue ifFalse => ifTrue.flow.alt ifFalse.flow
  | .cont _ => Flow.skip

def Stms.flow : Stms N → Flow N (Variable N)
  | .nil => Flow.skip
  | .cons s rest => s.flow.comp rest.flow

end

mutual

/-- From the start of a statement to the continues in it. -/
def Stm.flowBack : Stm N → Flow N (Variable N)
  | .assign _ _ => Flow.none
  | .ifElse _ _ _ ifTrue ifFalse => ifTrue.flowBack.alt ifFalse.flowBack
  | .cont _ => Flow.skip

def Stms.flowBack : Stms N → Flow N (Variable N)
  | .nil => Flow.none
  | .cons s rest => s.flowBack.alt (s.flow.comp rest.flowBack)

end

/-- **The flow of a round**: from the start of the body along the back edges. An empty
body has none. -/
def Body.flow {D : N → Decl} (body : Body D) : Flow N (Variable N) :=
  match body.stms with
  | .nil => Flow.none
  | .cons _ _ => body.stms.flowBack.alt body.stms.flow

end Flows

end Loop

end Facts

end CLSmith
