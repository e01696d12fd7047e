import CLSmith.Common.Events
import CLSmith.Common.Scopes
import CLSmith.Goto.Flow
/-!
# Selection of variables

`VariableSelector` finds a variable for an expression among those that are visible,
or makes a new one, global or local. A new variable has initial values, and a pointer
is initialised with the address of another variable, which may be made for it first.
An array gives one of its elements.
-/

namespace CLSmith

namespace VariableSelector

open Generate (FlowGraph FlowEvent)

/-- **`Variable`**, with the variables that are in its indices and in its initial
values. A field is selected with the variable it is in. -/
structure Variable where
  isArray : Bool := false
  isVector : Bool := false
  /-- It is called `comm_`. -/
  isComm : Bool := false
  collective : Option ℕ := none
  indices : List ℕ := []
  init : List ℕ := []

/-- `GlobalList`, and of each function its blocks and parameters. `buffers` is what
`StatementComm` adds to the globals on its own; `used` are the variables selected,
with the function and the block they are for. -/
structure State (M : Type) where
  func : ℕ → FlowGraph M := fun _ => { func := {} }
  param : ℕ → List ℕ := fun _ => []
  buffers : List ℕ := []
  globalList : List ℕ := []
  var : ℕ → Variable := fun _ => {}
  nextVar : ℕ := 0
  used : List (ℕ × ℕ × ℕ) := []

/-- Where a variable is made: a block, or else `GlobalList`. -/
abbrev Place : Type := Option (ℕ × ℕ)

variable {M : Type}

namespace State

variable (σ : State M)

/-- `local_vars` of a block of a function. -/
def localVars (i b : ℕ) : List ℕ := ((σ.func i).func.block b).localVars

/-- `find_all_visible_vars`. -/
def findAllVisibleVars : Place → List ℕ
  | none => σ.globalList
  | some p => σ.globalList ++ ((σ.func p.1).func.chain p.2).flatMap (σ.localVars p.1)

/-- What `make_init_value` chooses from; inside an atomic section only the variables of
the block. -/
def initVars (atomic : Bool) : Place → List ℕ
  | none => if atomic then [] else σ.globalList
  | some p => if atomic then σ.localVars p.1 p.2 else σ.findAllVisibleVars (some p)

/-! ## New variables -/

/-- `new Variable`. -/
def newVariable (x : Variable) : State M :=
  { σ with var := Function.update σ.var σ.nextVar x, nextVar := σ.nextVar + 1 }

/-- `push_back` to the variables of the place. -/
def declare (v : ℕ) : Place → State M
  | none => { σ with globalList := σ.globalList ++ [v] }
  | some p =>
    { σ with
      func := Function.update σ.func p.1
        { σ.func p.1 with func := (σ.func p.1).func.newLocal p.2 v } }

/-- `itemize`: an element of an array. -/
def itemize (a : ℕ) (indices : List ℕ) : ℕ × State M :=
  (σ.nextVar, σ.newVariable { σ.var a with collective := some a, indices := indices })

/-- `choose_ok_var`: for an array an element with constants for indices, and for an
element of a vector another one. -/
def chooseOkVar (v : ℕ) : ℕ × State M :=
  match (σ.var v).collective with
  | none => if (σ.var v).isArray then σ.itemize v [] else (v, σ)
  | some a => if (σ.var v).isVector then σ.itemize a [] else (v, σ)

/-- `choose_ok_var` for one index after the other. -/
def chooseOkVars : List ℕ → State M → List ℕ × State M
  | [], σ => ([], σ)
  | v :: vs, σ =>
    let r := σ.chooseOkVar v
    (r.1 :: (chooseOkVars vs r.2).1, (chooseOkVars vs r.2).2)

/-- `choose_var`: `k` is drawn. -/
def chooseVar (vars : List ℕ) (k : ℕ) : Option (ℕ × State M) := vars[k]?.map σ.chooseOkVar

/-- `expand_block_for_goto`, for a local variable. -/
def enlarge : Place → Option Place
  | none => some none
  | some p => ((σ.func p.1).expandBlockForGoto p.2).map fun b => some (p.1, b)

/-- **`CreateArrayVariable`** and `CreateVectorVariable`: the array is among the
variables of the place it is asked for, before any element of it is. -/
def createArrayVariable (p : Place) (isVector : Bool) (init : List ℕ) : ℕ × State M :=
  (σ.nextVar,
    (σ.newVariable { isArray := true, isVector := isVector, init := init }).declare σ.nextVar p)

/-- The variable `make_init_value` has found is not the right kind. -/
def unfit (v : ℕ) : Bool :=
  ((σ.var v).isArray && (σ.var v).isVector) || (σ.var v).isComm

end State

/-! ## Initial values -/

mutual

/-- What is drawn for an initial value, as often as a variable of the wrong kind is
found for it. -/
inductive InitDraw
  /-- A constant. -/
  | constant
  /-- The address or the value of a variable. -/
  | of (t : Target)
  /-- The variable is of the wrong kind: once more. -/
  | again (t : Target) (rest : InitDraw)

/-- What is drawn for the variable of an initial value. -/
inductive Target
  /-- One that is visible. -/
  | visible (k : ℕ)
  /-- A new one: with `use_local` a local one, if it is no volatile aggregate. -/
  | fresh (useLocal : Bool) (d : VarDraw)

/-- What is drawn for a new variable: a plain one, or an array. -/
inductive VarDraw
  | plain (init : InitDraw)
  /-- An array with its alternative initial values. -/
  | array (isVector : Bool) (inits : List InitDraw)

end

variable (atomic : Bool)

mutual

/-- **`make_init_value`**: the variables the initial value names. It is a constant, or
the address of a variable that is visible at the place or made for it. -/
def makeInitValue (p : Place) : InitDraw → State M → Option (List ℕ × State M)
  | .constant, σ => some ([], σ)
  | .of t, σ =>
    (findTarget p t σ).bind fun r => if r.2.unfit r.1 then none else some ([r.1], r.2)
  | .again t rest, σ =>
    (findTarget p t σ).bind fun r => if r.2.unfit r.1 then makeInitValue p rest r.2 else none

/-- The variable of an initial value. -/
def findTarget (p : Place) : Target → State M → Option (ℕ × State M)
  | .visible k, σ => σ.chooseVar (σ.initVars atomic p) k
  | .fresh useLocal d, σ =>
    (σ.enlarge (if useLocal then p else none)).bind fun q =>
      (createAndInitialize q d σ).map fun r => (r.1, r.2.declare r.1 q)

/-- **`create_and_initialize`**; an array is itemized. The initial value is made
before the variable, so that it cannot name it. -/
def createAndInitialize (q : Place) : VarDraw → State M → Option (ℕ × State M)
  | .plain init, σ =>
    (makeInitValue q init σ).map fun r => (r.2.nextVar, r.2.newVariable { init := r.1 })
  | .array isVector inits, σ =>
    (makeInitValues q inits σ).map fun r =>
      let c := r.2.createArrayVariable q isVector r.1
      c.2.itemize c.1 []

/-- Initial values one after the other. -/
def makeInitValues (p : Place) : List InitDraw → State M → Option (List ℕ × State M)
  | [], σ => some ([], σ)
  | d :: ds, σ =>
    (makeInitValue p d σ).bind fun r =>
      (makeInitValues p ds r.2).map fun r' => (r.1 ++ r'.1, r'.2)

end

/-- **`GenerateNewGlobal`** and **`GenerateNewParentLocal`**. A local variable goes to
the block that is expanded for gotos, and is declared there once it has its initial
value. -/
def generateNew (p : Place) (d : VarDraw) (σ : State M) : Option (ℕ × State M) :=
  (σ.enlarge p).bind fun q =>
    (createAndInitialize atomic q d σ).map fun r => (r.1, r.2.declare r.1 q)

/-! ## Selection -/

/-- What is drawn to select a variable; `k` is its place among those that are found. -/
inductive Selection
  /-- `SelectGlobal`. -/
  | global (k : ℕ)
  /-- `SelectParentLocal`: of a block of the stack. -/
  | parentLocal (index k : ℕ)
  /-- `SelectParentParam`. -/
  | parentParam (k : ℕ)
  /-- `select_deref_pointer` and `SelectLoopCtrlVar`: any that is visible. -/
  | visible (k : ℕ)
  /-- `select_array`. -/
  | array (k : ℕ)
  /-- `GenerateNewGlobal`. -/
  | newGlobal (d : VarDraw)
  /-- `GenerateNewParentLocal`. -/
  | newLocal (index : ℕ) (d : VarDraw)
  /-- `create_random_array`. -/
  | newArray (index : Option ℕ) (isVector : Bool)

namespace State

variable (σ : State M)

/-- A block of the stack of a function. -/
def stackBlock (i index : ℕ) : Option Place :=
  ((σ.func i).func.stack[index]?).map fun b => some (i, b)

/-- **`select`**, for the block `b` of the function `i`. Which variables fit by type,
qualifiers and effects is left open, so any of the lists may be chosen from at any
index. -/
def select (i b : ℕ) : Selection → Option (ℕ × State M)
  | .global k => σ.chooseVar σ.globalList k
  | .parentLocal index k =>
    ((σ.func i).func.stack[index]?).bind fun c => σ.chooseVar (σ.localVars i c) k
  | .parentParam k => σ.chooseVar (σ.param i) k
  | .visible k => σ.chooseVar (σ.findAllVisibleVars (some (i, b)) ++ σ.param i) k
  | .array k =>
    ((σ.findAllVisibleVars (some (i, b)))[k]?).bind fun v =>
      if (σ.var v).isArray ∧ (σ.var v).collective = none then some (v, σ) else none
  | .newGlobal d => generateNew atomic none d σ
  | .newLocal index d => (σ.stackBlock i index).bind fun p => generateNew atomic p d σ
  | .newArray index isVector =>
    (match index with
      | none => some none
      | some k => (σ.stackBlock i k).bind σ.enlarge).map fun q =>
        σ.createArrayVariable q isVector []

/-- The variables are in expressions of the block. -/
def uses (i b : ℕ) (vs : List ℕ) : State M :=
  { σ with used := σ.used ++ vs.map fun v => (i, b, v) }

/-- An element of an array is declared in the block and is in an expression of it. -/
def indexed (i b a : ℕ) (indices : List ℕ) : State M :=
  ((σ.itemize a indices).2.declare (σ.itemize a indices).1 (some (i, b))).uses i b
    [(σ.itemize a indices).1]

/-- `random_parent_block`. -/
def randomParentBlock (i b : ℕ) : Option ℕ → Option Place
  | none => some none
  | some k => (((σ.func i).func.chain b)[k]?).map fun c => some (i, c)

/-- The variable was selected for the block or one around it. -/
def usedAround (i b v : ℕ) : Bool :=
  σ.used.any fun e => decide (e.1 = i ∧ e.2.1 ∈ (σ.func i).func.chain b ∧ e.2.2 = v)

end State

/-- **An event**: something happens to the blocks of a function, or a variable is made
or selected. -/
inductive Event (M : Type)
  | flow (i : ℕ) (e : FlowEvent M)
  /-- `GenerateParameterVariable`. -/
  | parameter (i : ℕ)
  | select (i : ℕ) (atomic : Bool) (s : Selection)
  /-- `choose_visible_read_var`, for the condition of a goto. -/
  | condition (i c k : ℕ)
  /-- `itemize_array`: induction variables are the indices. -/
  | itemizeArray (i a : ℕ) (ivs : List ℕ)
  /-- `StatementComm::make_random`: `permutations`, at a random expression and `tid`. -/
  | comm (i : ℕ) (vars : List ℕ)
  /-- `make_random_array_init`: an initial value for a block around, or for a global, is
  in a statement of the current block. -/
  | arrayInit (i : ℕ) (atomic : Bool) (index : Option ℕ) (d : InitDraw)

/-- **One event.** Beside the events of the flow these are a parameter made, a
variable selected, and the statements that make or use variables in ways of their own. -/
def step (cg : CGOptions) (σ : State M) : Event M → Option (State M)
  | .flow _ (.newLocal _ _) => none
  | .flow i e =>
    ((σ.func i).step cg e).map fun g => { σ with func := Function.update σ.func i g }
  | .parameter i =>
    if (σ.func i).func.nextBlock = 0 then
      some { σ.newVariable {} with param := Function.update σ.param i (σ.param i ++ [σ.nextVar]) }
    else none
  | .select i atomic s =>
    (σ.func i).func.currentBlock.bind fun b =>
      (σ.select atomic i b s).map fun r => r.2.uses i b [r.1]
  | .condition i c k =>
    if c < (σ.func i).func.nextBlock then
      (σ.chooseVar (σ.findAllVisibleVars (some (i, c)) ++ σ.param i) k).map fun r =>
        r.2.uses i c [r.1]
    else none
  | .itemizeArray i a ivs =>
    (σ.func i).func.currentBlock.bind fun b =>
      if a ∈ σ.findAllVisibleVars (some (i, b)) ∧ (σ.var a).isArray = true ∧
          (σ.var a).collective = none ∧ (ivs.all fun v => σ.usedAround i b v) = true then
        let r := State.chooseOkVars ivs σ
        some (r.2.indexed i b a r.1)
      else none
  | .comm i vars =>
    (σ.func i).func.currentBlock.bind fun b =>
      match σ.buffers with
      | [permutations, _, _, tid] =>
        if (vars.all fun v => σ.usedAround i b v) = true then
          some (σ.indexed i b permutations (vars ++ [tid]))
        else none
      | _ => none
  | .arrayInit i atomic index d =>
    (σ.func i).func.currentBlock.bind fun b =>
      (σ.randomParentBlock i b index).bind fun p =>
        (makeInitValue atomic p d σ).map fun r => r.2.uses i b r.1

/-- The variables of `InitBuffers`: `permutations`, `l_comm_values` and `g_comm_values`,
the element of the first that `tid` starts with, `tid`, and the elements of the other two
at it. -/
def bufferVars : List Variable :=
  [{ isArray := true }, { isArray := true, isComm := true }, { isArray := true, isComm := true },
    { isArray := true, collective := some 0 }, { init := [3] },
    { isArray := true, isComm := true, collective := some 2, indices := [4] },
    { isArray := true, isComm := true, collective := some 1, indices := [4] }]

/-- What `InitBuffers` leaves behind with `inter_thread_comm`. -/
def initBuffers : State M where
  buffers := [0, 1, 2, 4]
  globalList := [6, 5]
  var v := bufferVars.getD v {}
  nextVar := 7

/-- The state generation starts in. -/
def State.start (interThreadComm : Bool) : State M :=
  if interThreadComm then initBuffers else {}

/-- **The runs**: any events, from the buffers of the kernel on. -/
def system (M : Type) (cg : CGOptions) (interThreadComm : Bool) : Common.System (State M) :=
  Common.eventSystem (step cg) (State.start interThreadComm)

end VariableSelector

end CLSmith
