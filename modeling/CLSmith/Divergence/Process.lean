import CLSmith.Common.Paired
import Mathlib.Data.Fintype.Card
import Mathlib.Data.Finset.Union
/-!
# Processing a function for divergence

`FunctionDivergence` walks a function and marks what threads may disagree on:
the variables, the blocks, and with them which variables each pointer may point
to. A branch is processed on maps of its own, merged into those from before it;
a `for` is processed again for as long as the merge marks something new. Blocks
are never split, so a block stands for the one sub block it has.
-/

namespace CLSmith

namespace Divergence

namespace Process

open Common

/-! ## The program -/

/-- `Lhs`: a variable and how often it is dereferenced. -/
structure Lhs (V : Type) where
  var : V
  indirectLevel : ℕ

/-- What is read of the declarations: whether a variable is global or an argument, and
how many times it can be dereferenced. -/
structure Variables (V : Type) where
  isGlobal : V → Bool
  isArgument : V → Bool
  indirectLevel : V → ℕ

mutual

/-- `Expression`. A variable is at level `-1` where its address is taken. -/
inductive Expr (V F B : Type)
  | constant
  | assignment (lhs : Lhs V) (rhs : Expr V F B)
  | variable (var : V) (indirectLevel : ℤ)
  | funcall (callee : Func V F B) (paramValue : List (Expr V F B))
  | binary (lhs rhs : Expr V F B)
  | unary (operand : Expr V F B)
  | comma (lhs rhs : Expr V F B)
  | cl (isDivergent : Bool)

/-- `Function`, with the body it has, as calls do not go round. -/
inductive Func (V F B : Type)
  | mk (name : F) (returnLevel : ℕ) (param : List V) (body : Block V F B)

/-- `Block`: the local variables with what they begin as, and the statements. -/
inductive Block (V F B : Type)
  | mk (block : B) (localVars : List (V × Expr V F B)) (stms : List (Statement V F B))

/-- `Statement`. An invocation of an operator is no operation. -/
inductive Statement (V F B : Type)
  | assign (lhs : Lhs V) (rhs : Expr V F B)
  | for (initLhs : Lhs V) (initRhs test : Expr V F B) (incrLhs : Lhs V) (incrRhs : Expr V F B)
      (body : Block V F B)
  | ifElse (test : Expr V F B) (trueBranch : Block V F B) (falseBranch : Option (Block V F B))
  | invokePrim
  | invoke (callee : Func V F B) (paramValue : List (Expr V F B))
  | return (var : Expr V F B)
  | continue (test : Expr V F B) (loopBlk : B)
  | break (test : Expr V F B) (loopBlk : B)

end

variable {V F B : Type}

def Func.name : Func V F B → F
  | .mk name _ _ _ => name

def Func.param : Func V F B → List V
  | .mk _ _ param _ => param

def Func.body : Func V F B → Block V F B
  | .mk _ _ _ body => body

def Block.block : Block V F B → B
  | .mk block _ _ => block

/-! ## The state -/

/-- `SavedState`: what `SaveState` keeps of a function in front of a branch or a loop,
to be restored or merged behind it. -/
structure SavedState (V F B : Type) where
  functionOwner : F
  subBlockDiv : Finset B
  variableDiv : V → Option Bool
  globalVarDiv : V → Option Bool

/-- The members of `FunctionDivergence` that each processing starts from
scratch. A block with no entry in `sub_block_div_` counts as not marked wherever
it is looked up; a variable with no entry is looked up further out. -/
structure FunctionState (V B : Type) where
  subBlockDiv : Finset B
  variableDiv : V → Option Bool
  divergentValue : Bool
  varDerefsTo : V → Option (Finset V)
  returnDerefsTo : Finset V
  subBlock : B
  divergent : Bool

/-- The members of `Divergence`, and what the `FunctionDivergence` of each
function keeps from one processing to the next. -/
structure ProgramState (V F B : Type) where
  globalVarDiv : V → Option Bool
  globalVarDerefsTo : V → Finset V
  savedStates : List (SavedState V F B)
  scopeLevelsFinal : F → B → List B
  subBlockDivFinal : F → Finset B
  divergentLeft : F → Bool

structure State (V F B : Type) extends FunctionState V B, ProgramState V F B

/-- The state as `Divergence` and its first `FunctionDivergence` are made. -/
def State.start (body : B) : State V F B where
  subBlockDiv := ∅
  variableDiv _ := none
  divergentValue := false
  varDerefsTo _ := none
  returnDerefsTo := ∅
  subBlock := body
  divergent := false
  globalVarDiv _ := none
  globalVarDerefsTo _ := ∅
  savedStates := []
  scopeLevelsFinal _ _ := []
  subBlockDivFinal _ := ∅
  divergentLeft _ := false

/-! ## Looking up a variable -/

/-- **`SearchMap`**: the nearest map that has an entry decides. What none of them has
an entry for is convergent. -/
def searchMap (item : V) : List (V → Option Bool) → Bool
  | [] => false
  | m :: ms => (m item).getD (searchMap item ms)

section

variable [DecidableEq F]

def ownLevels (f : F) (saved : List (SavedState V F B)) : List (V → Option Bool) :=
  (saved.filter (·.functionOwner = f)).map (·.variableDiv)

def globalLevels (saved : List (SavedState V F B)) : List (V → Option Bool) :=
  saved.map (·.globalVarDiv)

variable (d : Variables V) (f : F)

/-- **`IsVariableDivergent`**. A global variable is looked up in the maps of every
function saved, a local one only in those of its own. -/
def isVariableDivergent (s : State V F B) (v : V) : Bool :=
  if d.isGlobal v then searchMap v (s.globalVarDiv :: globalLevels s.savedStates)
  else searchMap v (s.variableDiv :: ownLevels f s.savedStates)

variable [DecidableEq V]

/-! ## Pointers -/

def derefsTo (s : State V F B) (v : V) : Finset V :=
  if d.isGlobal v then s.globalVarDerefsTo v else (s.varDerefsTo v).getD ∅

/-- Looking up the targets of a pointer gives it an entry. -/
def openDerefs (vs : Finset V) (s : State V F B) : State V F B :=
  { s with varDerefsTo := fun v =>
      if v ∈ vs ∧ d.isGlobal v = false then some ((s.varDerefsTo v).getD ∅) else s.varDerefsTo v }

/-- The loop of `DereferencePointerVariable`. -/
def dereference : ℕ → Finset V → StateM (State V F B) (Bool × Finset V)
  | 0, derefVars => pure (false, derefVars)
  | derefLevel + 1, derefVars => do
    let derefDiv ← reads fun s => decide (∃ v ∈ derefVars, isVariableDivergent d f s v = true)
    let next ← reads fun s => derefVars.biUnion (derefsTo d s)
    modify (openDerefs d derefVars)
    let rest ← dereference derefLevel next
    return (derefDiv || rest.1, rest.2)

/-- **`DereferencePointerVariable`**: whether threads may disagree on a pointer
on the way, and the variables arrived at. -/
def dereferencePointerVariable (var : V) (derefLevel : ℕ) :
    StateM (State V F B) (Bool × Finset V) :=
  dereference d f derefLevel {var}

/-- **`SetVariableDivergence`**, of each of `vs`: an entry of the innermost map, which
hides those saved. -/
def setVariableDivergence (vs : Finset V) (divergent : Bool) (s : State V F B) : State V F B :=
  { s with
    globalVarDiv := fun v =>
      if v ∈ vs ∧ d.isGlobal v = true then some divergent else s.globalVarDiv v
    variableDiv := fun v =>
      if v ∈ vs ∧ d.isGlobal v = false then some divergent else s.variableDiv v }

/-- Each of `vs` may now point to each of `refs`. -/
def insertDerefs (vs refs : Finset V) (s : State V F B) : State V F B :=
  { s with
    globalVarDerefsTo := fun v =>
      if v ∈ vs ∧ d.isGlobal v = true then s.globalVarDerefsTo v ∪ refs else s.globalVarDerefsTo v
    varDerefsTo := fun v =>
      if v ∈ vs ∧ d.isGlobal v = false then some ((s.varDerefsTo v).getD ∅ ∪ refs)
      else s.varDerefsTo v }

/-- **`IsAssignmentDivergent`**, given how the right side is evaluated: for its
value, or for the variables it references where a pointer is assigned. -/
def isAssignmentDivergent (lhs : Lhs V) (value : StateM (State V F B) Bool)
    (references : StateM (State V F B) (Bool × Finset V)) : StateM (State V F B) Bool := do
  let lhsDerefs ← dereferencePointerVariable d f lhs.var lhs.indirectLevel
  if 0 < d.indirectLevel lhs.var - lhs.indirectLevel then
    let rhs ← references
    let divergent ← reads fun s => s.divergent
    modify (insertDerefs d lhsDerefs.2 rhs.2)
    modify (setVariableDivergence d lhsDerefs.2 (rhs.1 || lhsDerefs.1 || divergent))
    return rhs.1
  else
    let assDiv ← value
    let divergent ← reads fun s => s.divergent
    -- several variables may be meant: none of them becomes convergent
    if lhsDerefs.2.card ≤ 1 ∨ (assDiv || divergent) = true then
      modify (setVariableDivergence d lhsDerefs.2 (assDiv || divergent))
    return assDiv

/-! ## Saving and merging -/

variable [DecidableEq B]

/-- **`SaveState`**: the maps to go back to. The pointers' targets are not among them,
and stay what they have become. -/
def saveState (s : State V F B) : SavedState V F B :=
  ⟨f, s.subBlockDiv, s.variableDiv, s.globalVarDiv⟩

/-- The maps after `SaveState`. -/
def cleared (s : State V F B) : State V F B :=
  { s with subBlockDiv := ∅, variableDiv := fun _ => none, globalVarDiv := fun _ => none }

/-- **`MergeMap`**. What either of the maps has as divergent is so afterwards; an
entry that only the merged map has comes with it, divergent or not. -/
def mergeMap (saved merger : V → Option Bool) (v : V) : Option Bool :=
  match merger v with
  | none => saved v
  | some div => some ((saved v).getD false || div)

/-- **`RestoreAndMergeSavedState`**: the maps of before the save, with what is
marked now marked in them. -/
def restoreAndMerge (saved : SavedState V F B) (s : State V F B) : State V F B :=
  { s with
    subBlockDiv := saved.subBlockDiv ∪ s.subBlockDiv
    variableDiv := mergeMap saved.variableDiv s.variableDiv
    globalVarDiv := mergeMap saved.globalVarDiv s.globalVarDiv }

/-- What `MergeMap` reports: an element newly marked. -/
def NewIn (saved merger : V → Option Bool) : Prop :=
  ∃ v, merger v = some true ∧ saved v ≠ some true

/-- What `RestoreAndMergeSavedState` reports. -/
def Change (saved : SavedState V F B) (s : State V F B) : Prop :=
  ¬ s.subBlockDiv ⊆ saved.subBlockDiv ∨ NewIn saved.variableDiv s.variableDiv ∨
    NewIn saved.globalVarDiv s.globalVarDiv

instance [Fintype V] (saved merger : V → Option Bool) : Decidable (NewIn saved merger) :=
  inferInstanceAs (Decidable (∃ v, merger v = some true ∧ saved v ≠ some true))

instance [Fintype V] (saved : SavedState V F B) (s : State V F B) : Decidable (Change saved s) :=
  inferInstanceAs (Decidable (¬ s.subBlockDiv ⊆ saved.subBlockDiv ∨
    NewIn saved.variableDiv s.variableDiv ∨ NewIn saved.globalVarDiv s.globalVarDiv))

/-- The state is saved where the lookups find it. -/
def pushState (s : State V F B) : State V F B :=
  { cleared s with savedStates := saveState f s :: s.savedStates }

/-- The last state saved is restored, and forgotten. -/
def popState [Fintype V] : StateM (State V F B) Bool := fun s =>
  match s.savedStates with
  | [] => (false, s)
  | saved :: rest =>
    (decide (Change saved s), { restoreAndMerge saved s with savedStates := rest })

/-- Processing between a save and the merge into what was saved, and whether
that merge marks something new. -/
def onSavedState [Fintype V] (m : StateM (State V F B) Unit) : StateM (State V F B) Bool := do
  modify (pushState f)
  m
  popState

/-! ## Blocks -/

/-- The calls of `MarkSubBlockDivergentViral`, which go no deeper than there
are blocks to mark. -/
def markViral (scopeLevels : B → List B) : ℕ → B → Finset B → Finset B
  | 0, _, marked => marked
  | n + 1, b, marked =>
    if b ∈ marked then marked
    else (scopeLevels b).foldl (fun m branch => markViral scopeLevels n branch m) (insert b marked)

/-- **`MarkSubBlockDivergentViral`**: a sub block and all that its branches lead to,
as far as they are tracked by then. -/
def markSubBlockDivergentViral [Fintype B] (b : B) (s : State V F B) : State V F B :=
  { s with subBlockDiv :=
      markViral (s.scopeLevelsFinal f) (Fintype.card B) b s.subBlockDiv }

/-- **`GetSubBlockForBranchFromBlock`**: the branch is tracked from here on. -/
def getSubBlockForBranchFromBlock (b branch : B) (s : State V F B) : State V F B :=
  if branch ∈ s.scopeLevelsFinal f b then s
  else
    { s with
      scopeLevelsFinal := Function.update s.scopeLevelsFinal f
        (Function.update (s.scopeLevelsFinal f) b (s.scopeLevelsFinal f b ++ [branch])) }

/-- `*branch_block_div |= div`. -/
def orSubBlockDiv (b : B) (div : Bool) (s : State V F B) : State V F B :=
  if div then { s with subBlockDiv := insert b s.subBlockDiv } else s

def enterBlock (b : B) (div : Bool) (s : State V F B) : State V F B :=
  { s with subBlock := b, divergent := div }

/-- Back in the block the branch is in. -/
def leaveBlock (b : B) (s : State V F B) : State V F B :=
  enterBlock b (decide (b ∈ s.subBlockDiv)) s

/-! ## Statements and calls, given how their parts are processed -/

/-- The loop of `IsFunctionCallDivergent` over one pointer that is passed: the
pointers whose targets go with the call, and the variables reached by them. -/
def paramDerefs (s : State V F B) : ℕ → Finset V → Finset V × Finset V
  | 0, _ => (∅, ∅)
  | derefLvl + 1, varsToDeref =>
    let found := varsToDeref.filter fun v =>
      d.isGlobal v = false ∧ (s.varDerefsTo v).isSome = true
    let next := (found.biUnion fun v => (s.varDerefsTo v).getD ∅).filter fun v =>
      d.isArgument v = false
    let rest := paramDerefs s derefLvl next
    (found ∪ rest.1, (next.filter fun v => d.isGlobal v = false) ∪ rest.2)

/-- The pointers that go with a call, and the variables. -/
def callContext (s : State V F B) : List V → Finset V × Finset V
  | [] => (∅, ∅)
  | param :: params =>
    let here := paramDerefs d s (d.indirectLevel param) {param}
    let rest := callContext s params
    (here.1 ∪ rest.1, here.2 ∪ rest.2)

/-- What `ProcessWithContext` starts from. The flag is as the last processing
of the function left it until the block's variables are through. -/
def processStart (name : F) (param : List V) (parameters : List Bool) (body : B)
    (s : State V F B) : FunctionState V B where
  subBlockDiv := ∅
  variableDiv := fun v =>
    if v ∈ (callContext d s param).2 then some (isVariableDivergent d f s v)
    else (param.zip parameters).lookup v
  divergentValue := false
  varDerefsTo := fun v => if v ∈ (callContext d s param).1 then s.varDerefsTo v else none
  returnDerefsTo := ∅
  subBlock := body
  divergent := s.divergentLeft name

/-- `divergent_ = divergent`, of the function and of its body. -/
def setDivergent (body : B) (divergent : Bool) (s : State V F B) : State V F B :=
  { s with
    divergent := divergent
    subBlockDiv := if divergent then insert body s.subBlockDiv else s.subBlockDiv.erase body }

/-- **`ProcessFinalise`**: what was marked this time is added to what was marked in
earlier processings of the function. -/
def processFinalise (name : F) (s : State V F B) : State V F B :=
  { s with
    subBlockDivFinal := Function.update s.subBlockDivFinal name
      (s.subBlockDivFinal name ∪ s.subBlockDiv)
    divergentLeft := Function.update s.divergentLeft name s.divergent }

/-- The members of the caller after the call that ended in `e`. -/
def afterCall (param : List V) (s e : State V F B) : FunctionState V B :=
  { s.toFunctionState with
    varDerefsTo := fun v =>
      if v ∈ param then none
      else if v ∈ (callContext d s param).1 ∧ d.isGlobal v = false ∧ d.isArgument v = false then
        some ((s.varDerefsTo v).getD ∅ ∪
          ((e.varDerefsTo v).getD ∅).filter fun r => d.isGlobal r = true)
      else s.varDerefsTo v
    variableDiv := fun v =>
      if v ∈ param then none
      else if v ∈ (callContext d s param).1 ∧ d.isGlobal v = false ∧ d.isArgument v = false then
        some ((e.variableDiv v).getD false)
      else s.variableDiv v }

/-- The state `ProcessWithContext` leaves, given how the function's variables
and statements are processed. -/
def calleeEnd (name : F) (param : List V) (body : B) (parameters : List Bool)
    (processBlockStart processSteps : StateM (State V F B) Unit) (s : State V F B) :
    State V F B :=
  let callee : StateM (State V F B) Unit := do
    processBlockStart
    modify (setDivergent body s.divergent)
    processSteps
    modify (processFinalise name)
  (callee.run
    { s with toFunctionState := processStart d f name param parameters body s }).2

/-- **`IsFunctionCallDivergent`** once the parameters are assigned: whether the
value returned is divergent, and the variables it may reference. -/
def isFunctionCallDivergent (name : F) (param : List V) (body : B) (parameters : List Bool)
    (processBlockStart processSteps : StateM (State V F B) Unit) :
    StateM (State V F B) (Bool × Finset V) := fun s =>
  let e := calleeEnd d f name param body parameters processBlockStart processSteps s
  ((e.divergentValue, e.returnDerefsTo),
    { e with toFunctionState := afterCall d param s e })

variable [Fintype V] [Fintype B]

/-- **`ProcessStatementJump`**, of `break` and `continue` alike. Where threads may
disagree on the jump they may disagree on the rest of the loop, so its body is marked. -/
def processStatementJump (test : StateM (State V F B) Bool) (loopBlk : B) :
    StateM (State V F B) Unit := do
  let exprDiv ← test
  let divergent ← reads fun s => s.divergent
  if (exprDiv || divergent) = true then
    modify (markSubBlockDivergentViral f loopBlk)

/-- **`ProcessStatementReturn`** in a function that returns a pointer of level
`returnLevel`, or no pointer. -/
def processStatementReturn (returnLevel : ℕ) (value : StateM (State V F B) Bool)
    (references : StateM (State V F B) (Bool × Finset V)) : StateM (State V F B) Unit := do
  let divergent ← reads fun s => s.divergent
  if divergent = true then
    let subBlock ← reads fun s => s.subBlock
    modify (markSubBlockDivergentViral f subBlock)
  if returnLevel = 0 then
    let div ← value
    modify fun s => { s with divergentValue := s.divergentValue || (div || s.divergent) }
  else
    let refs ← references
    modify fun s =>
      { s with
        divergentValue := s.divergentValue || refs.1 || s.divergent
        returnDerefsTo := s.returnDerefsTo ∪ refs.2 }

/-- The false branch, from `ProcessEndStatementIf` after the true branch to its
merge with that. The flag of the branch is looked up when its entry is already
saved away. -/
def processFalseBranch (falseBranch : B) (processBlock : StateM (State V F B) Unit) :
    StateM (State V F B) Unit := fun s =>
  let start := enterBlock falseBranch (decide (falseBranch ∈ (cleared s).subBlockDiv)) (cleared s)
  ((), restoreAndMerge (saveState f s) (processBlock.run start).2)

/-- **`ProcessStatementIf`**, the branches, and `ProcessEndStatementIf`. Both branches
are marked by the test before the maps are saved; the false branch is then processed
on fresh maps beside those of the true one. -/
def processStatementIf (test : StateM (State V F B) Bool) (trueBranch : B)
    (processTrue : StateM (State V F B) Unit)
    (falseBranch : Option (B × StateM (State V F B) Unit)) : StateM (State V F B) Unit := do
  let subBlock ← reads fun s => s.subBlock
  modify (getSubBlockForBranchFromBlock f subBlock trueBranch)
  let exprDiv ← test
  let divergent ← reads fun s => s.divergent
  modify (orSubBlockDiv trueBranch (exprDiv || divergent))
  match falseBranch with
  | none => pure ()
  | some branch =>
    modify (getSubBlockForBranchFromBlock f subBlock branch.1)
    modify (orSubBlockDiv branch.1 (exprDiv || divergent))
  let branchBlockDiv ← reads fun s => decide (trueBranch ∈ s.subBlockDiv)
  let _ ← onSavedState f do
    modify (enterBlock trueBranch branchBlockDiv)
    processTrue
    match falseBranch with
    | none => pure ()
    | some branch => processFalseBranch f branch.1 branch.2
  modify (leaveBlock subBlock)

/-- One processing of the body of a `for` entered with the flag `branchBlockDiv`:
the body, the increment and the test again. -/
def processForBody (subBlock body : B) (branchBlockDiv : Bool)
    (processBody : StateM (State V F B) Unit) (incr test : StateM (State V F B) Bool) :
    StateM (State V F B) Unit := do
  modify (enterBlock body branchBlockDiv)
  processBody
  let _ ← incr
  modify fun s => { s with subBlock := body }
  modify (getSubBlockForBranchFromBlock f subBlock body)
  let testDiv ← test
  let divergent ← reads fun s => s.divergent
  modify (orSubBlockDiv body (testDiv || divergent))

/-- The processing of the body between the save and the merge, and whether that
marks something new. The pointer that names the body's flag is left behind by
the restore; the flag it names is the one in the maps restored. -/
def forRound (subBlock body : B) (processBody : StateM (State V F B) Unit)
    (incr test : StateM (State V F B) Bool) : StateM (State V F B) Bool := do
  let branchBlockDiv ← reads fun s => decide (body ∈ s.subBlockDiv)
  onSavedState f (processForBody f subBlock body branchBlockDiv processBody incr test)

/-- Every round but the last marks a block, a local variable or a global one. -/
def forRounds (V B : Type) [Fintype V] [Fintype B] : ℕ :=
  Fintype.card B + 2 * Fintype.card V + 1

/-- **`ProcessStatementFor`** and `ProcessEndStatementFor`. The flag of the body is
set from the test before the first round, and again at the end of each round. -/
def processStatementFor (init test : StateM (State V F B) Bool) (body : B)
    (processBody : StateM (State V F B) Unit) (incr : StateM (State V F B) Bool) :
    StateM (State V F B) Unit := do
  let _ ← init
  let subBlock ← reads fun s => s.subBlock
  modify (getSubBlockForBranchFromBlock f subBlock body)
  let testDiv ← test
  let divergent ← reads fun s => s.divergent
  modify (orSubBlockDiv body (testDiv || divergent))
  whileChange (forRound f subBlock body processBody incr test) (forRounds V B)
  modify (leaveBlock subBlock)

/-! ## The walk -/

mutual

/-- **`IsExpressionDivergent`**. Assignments and calls inside the expression take
effect, also where the result does not depend on them. -/
def isExpressionDivergent (f : F) : Expr V F B → StateM (State V F B) Bool
  | .constant => pure false
  | .assignment lhs rhs =>
    isAssignmentDivergent d f lhs (isExpressionDivergent f rhs)
      (getExpressionVariableReferences f rhs)
  | .variable var indirectLevel => do
    let derefs ← dereferencePointerVariable d f var indirectLevel.toNat
    let any ← reads fun s => decide (∃ v ∈ derefs.2, isVariableDivergent d f s v = true)
    return derefs.1 || any
  | .funcall callee paramValue => do
    let parameters ← assignParameters f callee.param paramValue
    let value ← processWithContext f callee parameters
    return value.1
  | .binary lhs rhs => do
    let param1Div ← isExpressionDivergent f lhs
    let param2Div ← isExpressionDivergent f rhs
    return param1Div || param2Div
  | .unary operand => isExpressionDivergent f operand
  | .comma lhs rhs => do
    let _ ← isExpressionDivergent f lhs
    isExpressionDivergent f rhs
  | .cl isDivergent => pure isDivergent

/-- **`GetExpressionVariableReferences`**: the variables a pointer expression may
point to, and whether threads may disagree on which. The other terms are no pointers. -/
def getExpressionVariableReferences (f : F) :
    Expr V F B → StateM (State V F B) (Bool × Finset V)
  | .constant => pure (false, ∅)
  | .comma lhs rhs => do
    let _ ← isExpressionDivergent f lhs
    getExpressionVariableReferences f rhs
  | .assignment lhs rhs => do
    let _ ← isAssignmentDivergent d f lhs (isExpressionDivergent f rhs)
      (getExpressionVariableReferences f rhs)
    dereferencePointerVariable d f lhs.var 1
  | .funcall callee paramValue => do
    let parameters ← assignParameters f callee.param paramValue
    processWithContext f callee parameters
  | .variable var indirectLevel =>
    if indirectLevel = -1 then pure (false, {var})
    else dereferencePointerVariable d f var (indirectLevel + 1).toNat
  | _ => pure (false, ∅)

/-- The parameters of a call, assigned from left to right. -/
def assignParameters (f : F) : List V → List (Expr V F B) → StateM (State V F B) (List Bool)
  | param :: params, value :: values => do
    let paramDiv ← isAssignmentDivergent d f ⟨param, 0⟩ (isExpressionDivergent f value)
      (getExpressionVariableReferences f value)
    let rest ← assignParameters f params values
    return paramDiv :: rest
  | _, _ => pure []

/-- **`ProcessWithContext`**, of a callee of `f`. It is processed at every call anew,
with what the caller knows of its arguments. -/
def processWithContext (f : F) :
    Func V F B → List Bool → StateM (State V F B) (Bool × Finset V)
  | .mk name returnLevel param (.mk body localVars stms), parameters =>
    isFunctionCallDivergent d f name param body parameters (processBlockStart name localVars)
      (processSteps name returnLevel stms)

/-- **`ProcessBlockStart`**: the local variables of the block, assigned what they
begin as. -/
def processBlockStart (f : F) : List (V × Expr V F B) → StateM (State V F B) Unit
  | [] => pure ()
  | (var, init) :: rest => do
    let _ ← isAssignmentDivergent d f ⟨var, 0⟩ (isExpressionDivergent f init)
      (getExpressionVariableReferences f init)
    processBlockStart f rest

def processBlock (f : F) (returnLevel : ℕ) : Block V F B → StateM (State V F B) Unit
  | .mk _ localVars stms => do
    processBlockStart f localVars
    processSteps f returnLevel stms

def processSteps (f : F) (returnLevel : ℕ) : List (Statement V F B) → StateM (State V F B) Unit
  | [] => pure ()
  | stm :: stms => do
    processStep f returnLevel stm
    processSteps f returnLevel stms

/-- **`ProcessStep`**: one statement, with the branches that it leads to. -/
def processStep (f : F) (returnLevel : ℕ) : Statement V F B → StateM (State V F B) Unit
  | .assign lhs rhs => do
    let _ ← isAssignmentDivergent d f lhs (isExpressionDivergent f rhs)
      (getExpressionVariableReferences f rhs)
  | .for initLhs initRhs test incrLhs incrRhs body =>
    processStatementFor f
      (isAssignmentDivergent d f initLhs (isExpressionDivergent f initRhs)
        (getExpressionVariableReferences f initRhs))
      (isExpressionDivergent f test) body.block (processBlock f returnLevel body)
      (isAssignmentDivergent d f incrLhs (isExpressionDivergent f incrRhs)
        (getExpressionVariableReferences f incrRhs))
  | .ifElse test trueBranch none =>
    processStatementIf f (isExpressionDivergent f test) trueBranch.block
      (processBlock f returnLevel trueBranch) none
  | .ifElse test trueBranch (some falseBranch) =>
    processStatementIf f (isExpressionDivergent f test) trueBranch.block
      (processBlock f returnLevel trueBranch)
      (some (falseBranch.block, processBlock f returnLevel falseBranch))
  | .invokePrim => pure ()
  | .invoke callee paramValue => do
    let parameters ← assignParameters f callee.param paramValue
    let _ ← processWithContext f callee parameters
  | .return var =>
    processStatementReturn f returnLevel (isExpressionDivergent f var)
      (getExpressionVariableReferences f var)
  | .continue test loopBlk => processStatementJump f (isExpressionDivergent f test) loopBlk
  | .break test loopBlk => processStatementJump f (isExpressionDivergent f test) loopBlk

end

/-- **`ProcessEntryFunction`**: the global variables that are no arrays begin as
declared, then the function is processed, called from nowhere. -/
def processEntryFunction (globalVariables : List (V × Expr V F B)) (function : Func V F B) :
    StateM (State V F B) Unit := do
  processBlockStart d function.name globalVariables
  let _ ← processWithContext d function.name function []

end

end Process

end Divergence

end CLSmith
