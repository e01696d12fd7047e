import CLSmith.Common.Events
import Mathlib.Logic.Function.Basic
/-!
# Generating functions

`FuncList` and how it grows. A function is made while the body of another one
is generated, for a call there: first its signature, then the arguments of
the call, in the caller's body still, then its own body. Or a call takes a
function there is, by `choose_func`. A context for each body and each list of
arguments that is under way is on the stack.
-/

namespace CLSmith

namespace CallGraph

/-! ## The state -/

/-- `build_state`: a function is made unbuilt, is being built while its body is
generated, and is built from there on. -/
inductive BuildState
  | unbuilt | building | built
deriving DecidableEq

/-- What a `Function` is to the others: whether it is a built-in one, how far it is
built, and its calls. -/
structure Function where
  isBuiltin : Bool := false
  buildState : BuildState := .unbuilt
  /-- Whom its body calls, for each `FunctionInvocationUser` in it. -/
  calls : List ℕ := []

/-- `is_effect_known`. -/
def Function.isEffectKnown (f : Function) : Bool := decide (f.buildState = .built)

/-- `is_built`. -/
def Function.isBuilt (f : Function) : Bool := decide (f.buildState = .built)

/-- What is being generated. Frames are nested, as the arguments or the body of one
function call for another. -/
inductive Frame
  /-- The arguments of the call a function is made for. -/
  | arguments (func : ℕ)
  /-- The body of a function. -/
  | body (func : ℕ)
deriving DecidableEq

/-- Where `GenerateFunctions` is, which goes through its phases in this order. -/
inductive Phase
  /-- In `initialize_builtin_functions`. -/
  | builtins
  /-- In `make_first`. -/
  | first
  /-- In the loop over `FuncList`, with `cur_func_idx`. -/
  | loop (curFuncIdx : ℕ)
  /-- It has returned. -/
  | done
deriving DecidableEq

/-- The functions there are, with their `FactMgr`s, and what is under way. -/
structure State where
  func : ℕ → Function := fun _ => {}
  /-- The length of `FuncList`. -/
  size : ℕ := 0
  /-- The function of each entry of `FMList`. -/
  fmList : List ℕ := []
  builtinFunctionsCnt : ℕ := 0
  phase : Phase := .builtins
  stack : List Frame := []

/-- The options read. -/
structure Options where
  maxFuncs : ℕ := 10
  builtins : Bool := false

namespace State

variable (o : Options) (σ : State)

/-- `new Function`, and its `FactMgr`. -/
def newFunction (f : Function) : State :=
  { σ with
    func := Function.update σ.func σ.size f
    size := σ.size + 1
    fmList := σ.fmList ++ [σ.size] }

def setBuildState (f : ℕ) (b : BuildState) : State :=
  { σ with func := Function.update σ.func f { σ.func f with buildState := b } }

def setCalls (f : ℕ) (calls : List ℕ) : State :=
  { σ with func := Function.update σ.func f { σ.func f with calls := calls } }

/-- `get_current_func`: whose body the innermost context is for. -/
def currentFunc : List Frame → Option ℕ
  | [] => none
  | .body f :: _ => some f
  | .arguments _ :: rest => currentFunc rest

/-- `reach_max_functions_cnt`. -/
def reachMaxFunctionsCnt : Bool :=
  decide ((o.maxFuncs : ℤ) ≤ (σ.size : ℤ) - σ.builtinFunctionsCnt)

/-- `GetFirstFunction`. -/
def getFirstFunction : ℕ := σ.builtinFunctionsCnt

/-- `get_fact_mgr_for_func`: the position in `FMList`, at that in `FuncList`. -/
def getFactMgrForFunc (f : ℕ) : Option ℕ :=
  if f < σ.size then σ.fmList[f]? else none

/-- `get_one_function`. -/
def getOneFunction (okFuncs : List ℕ) (index : ℕ) : Option ℕ :=
  match okFuncs with
  | [] => none
  | [f] => some f
  | f :: rest => (f :: rest)[index]?

/-- **`choose_func`.** `accepts` is what the types, the qualifiers and the effects say,
`coin` and `index` are drawn. -/
def chooseFunc (accepts : ℕ → Bool) (coin : Bool) (index : ℕ) : Option ℕ :=
  let ok := (List.range σ.size).filter fun f => accepts f && (σ.func f).isEffectKnown
  let okFuncs := ok.filter fun f => !(σ.func f).isBuiltin
  let okBuiltinFuncs := ok.filter fun f => (σ.func f).isBuiltin
  let f := if o.builtins && coin then getOneFunction okBuiltinFuncs index else none
  match f with
  | some f => some f
  | none => getOneFunction okFuncs index

/-- A `FunctionInvocationUser` in the current function's body. -/
def addCall (f : ℕ) : State :=
  match currentFunc σ.stack with
  | some g => σ.setCalls g ((σ.func g).calls ++ [f])
  | none => σ

end State

/-- **What happens while functions are generated.** The draws are data of the events,
as are the candidates that types and effects leave when a function to call is chosen. -/
inductive Event
  /-- `make_builtin_function`. -/
  | makeBuiltin
  /-- `make_first`, up to `GenerateBody`. -/
  | makeFirst
  /-- `build_invocation_and_function`, up to the arguments. -/
  | makeSignature
  /-- `generate_body_with_known_params`, up to the body. -/
  | generateBody
  /-- The body there is complete. -/
  | finishBody
  /-- `build_invocation` of a function that is chosen. -/
  | buildInvocation (accepts : ℕ → Bool) (coin : Bool) (index : ℕ)
  /-- A statement or an expression with calls in it is discarded. -/
  | discard (kept : List ℕ)
  /-- The loop of `GenerateFunctions` goes on. -/
  | next

/-- **One event.** An event that `GenerateFunctions` cannot come to in the state it is
in has no successor. -/
def step (o : Options) (σ : State) : Event → Option State
  | .makeBuiltin =>
    if σ.phase = .builtins ∧ o.builtins = true then
      some { σ.newFunction ⟨true, .built, []⟩ with
        builtinFunctionsCnt := σ.builtinFunctionsCnt + 1 }
    else none
  | .makeFirst =>
    if σ.phase = .builtins then
      some { σ.newFunction ⟨false, .building, []⟩ with
        phase := .first, stack := [.body σ.size] }
    else none
  | .makeSignature =>
    if σ.stack = [] ∨ σ.reachMaxFunctionsCnt o = true then none
    else some { σ.newFunction ⟨false, .unbuilt, []⟩ with
      stack := .arguments σ.size :: σ.stack }
  | .generateBody =>
    match σ.stack with
    | .arguments f :: rest =>
      if (σ.func f).buildState ≠ .unbuilt then
        -- "ignoring attempt to regenerate func"
        some ({ σ with stack := rest }.addCall f)
      else some { σ.setBuildState f .building with stack := .body f :: rest }
    | _ => none
  | .finishBody =>
    match σ.stack with
    | .body f :: rest =>
      let σ := { σ.setBuildState f .built with stack := rest }
      if rest = [] then some { σ with phase := if σ.phase = .first then .loop 0 else σ.phase }
      else some (σ.addCall f)
    | _ => none
  | .buildInvocation accepts coin index =>
    if σ.stack = [] then none
    else (σ.chooseFunc o accepts coin index).map σ.addCall
  | .discard kept =>
    match State.currentFunc σ.stack with
    | some g => if kept.Sublist (σ.func g).calls then some (σ.setCalls g kept) else none
    | none => none
  | .next =>
    match σ.phase with
    | .loop i =>
      if σ.stack ≠ [] then none
      else if σ.size ≤ i then some { σ with phase := .done }
      else if (σ.func i).isBuilt = true then some { σ with phase := .loop (i + 1) }
      else if (σ.func i).buildState ≠ .unbuilt then some { σ with phase := .loop (i + 1) }
      else some { σ.setBuildState i .building with stack := [.body i] }
    | _ => none

/-- **`GenerateFunctions`**: any events, from no function on. The exits on an error
and a second call of it in one process are not among them. -/
def system (o : Options) : Common.System State := Common.eventSystem (step o) {}

/-- A function calls another. -/
def State.Calls (σ : State) (g f : ℕ) : Prop := f ∈ (σ.func g).calls

end CallGraph

end CLSmith
