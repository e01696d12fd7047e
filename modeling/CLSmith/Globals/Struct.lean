import Mathlib.Data.List.Basic
/-!
# The struct of the globals

OpenCL has no global variables: `Globals` makes one struct of them and of
the memory buffers. `OutputStructDefinition` prints its fields from the list
of the variables and the list of the buffers, `OutputStructInit` the
initialisers from the list of the variables and from what the `Add` calls
wrote down for each buffer. The two list the same elements in one order.

A name is looked up when it is printed: `ModifyGlobalVariableReferences`
changes the names between the two.
-/

namespace CLSmith

namespace Globals

/-- What an `ArrayVariable` has besides. `build_initializer_str` is a virtual
function: an array and a vector each have their own. -/
structure ArrayVariable where
  dims : String
  collective : Bool
  moreInitValues : List String
  buildInitializerStr : List String → String

/-- A global variable; `var` stands for where its `Variable` object lies. -/
structure Variable where
  var : ℕ
  qualifiedType : String
  init : String
  array : Option ArrayVariable := none

/-- `MemoryBuffer::MemorySpace`. -/
inductive MemorySpace
  | kGlobal | kLocal | kPrivate | kConst
deriving DecidableEq

/-- A memory buffer; an itemised one has a collective. -/
structure MemoryBuffer where
  var : ℕ
  memorySpace : MemorySpace
  qualifiedType : String
  collective : Bool
deriving DecidableEq

end Globals

open Globals in
/-- `Globals`: `struct_buff_init_` line by line, and in place of the text of
`buff_init_` the buffers whose definitions it holds. -/
structure Globals where
  globalVars : List Variable := []
  buffers : List MemoryBuffer := []
  structBuffInit : List String := []
  buffInit : List MemoryBuffer := []

namespace Globals

/-- `output_tab`. -/
def tab (n : ℕ) : String := String.join (List.replicate n "    ")

section Names

-- the names of the variables at the time of the call
variable (names : ℕ → String)

/-- What both `Add` functions write for a buffer. -/
def MemoryBuffer.initLine (b : MemoryBuffer) : String :=
  tab 2 ++ names b.var ++ ", // " ++ names b.var

/-- `AddLocalMemoryBuffer`. -/
def addLocalMemoryBuffer (b : MemoryBuffer) (g : Globals) : Option Globals :=
  if b.memorySpace = .kLocal then
    let g := { g with buffers := g.buffers ++ [b] }
    if b.collective then some g
    else some { g with
      buffInit := g.buffInit ++ [b]
      structBuffInit := g.structBuffInit ++ [b.initLine names] }
  else none

/-- `AddGlobalMemoryBuffer`. -/
def addGlobalMemoryBuffer (b : MemoryBuffer) (g : Globals) : Option Globals :=
  if b.memorySpace = .kGlobal then
    let g := { g with buffers := g.buffers ++ [b] }
    if b.collective then some g
    else some { g with structBuffInit := g.structBuffInit ++ [b.initLine names] }
  else none

/-- `AddGlobalVariable`. -/
def addGlobalVariable (v : Variable) (g : Globals) : Globals :=
  { g with globalVars := g.globalVars ++ [v] }

/-- The calls that fill a `Globals`, which may come in any order. -/
inductive Call
  | addGlobalVariable (v : Variable)
  | addLocalMemoryBuffer (b : MemoryBuffer)
  | addGlobalMemoryBuffer (b : MemoryBuffer)

def Call.run (g : Globals) : Call → Option Globals
  | .addGlobalVariable v => some (Globals.addGlobalVariable v g)
  | .addLocalMemoryBuffer b => Globals.addLocalMemoryBuffer names b g
  | .addGlobalMemoryBuffer b => Globals.addGlobalMemoryBuffer names b g

/-- A sequence of calls; it fails where an assertion does. -/
def runCalls : List Call → Globals → Option Globals
  | [], g => some g
  | c :: cs, g => (c.run names g).bind (runCalls cs)

/-- An itemised array variable is no field of the struct. -/
def Variable.skipped (v : Variable) : Bool :=
  match v.array with
  | some a => a.collective
  | none => false

/-- `OutputDecl`, virtual too: an array's has its dimensions behind the name. -/
def Variable.decl (v : Variable) : String :=
  v.qualifiedType ++ names v.var ++ match v.array with
    | some a => a.dims
    | none => ""

/-- `OutputAliasDecl`. -/
def MemoryBuffer.aliasDecl (b : MemoryBuffer) : String :=
  b.qualifiedType ++ "*" ++ names b.var

/-- **`OutputStructDefinition`**, line by line; `structType` is what the
type of the struct prints. -/
def outputStructDefinition (structType : String) (g : Globals) : List String :=
  [structType ++ " \x7b"] ++
  (g.globalVars.filter fun v => !v.skipped).map (fun v => tab 1 ++ v.decl names ++ ";") ++
  (g.buffers.filter fun b => !b.collective).map (fun b => tab 1 ++ b.aliasDecl names ++ ";") ++
  ["\x7d;"]

/-- The initialiser of a variable. -/
def Variable.initStr (v : Variable) : String :=
  match v.array with
  | some a => a.buildInitializerStr (v.init :: a.moreInitValues)
  | none => v.init

/-- **`OutputStructInit`**, line by line; the local names come from `gensym`.
Initialisers are in the order of the lists, which is all that ties them to the fields. -/
def outputStructInit (structType structTypePtr structVar localName1 localName2 : String)
    (g : Globals) : List String :=
  [tab 1 ++ structType ++ " " ++ localName1 ++ ";",
    tab 1 ++ structTypePtr ++ " " ++ structVar ++ " = &" ++ localName1 ++ ";",
    tab 1 ++ structType ++ " " ++ localName2 ++ " = \x7b"] ++
  g.globalVars.flatMap (fun v =>
    match v.array with
    | some a =>
      if a.collective then []
      else [tab 2 ++ a.buildInitializerStr (v.init :: a.moreInitValues) ++ ", // " ++ names v.var]
    | none => [tab 2 ++ v.init ++ ", // " ++ names v.var]) ++
  g.structBuffInit ++
  [tab 1 ++ "\x7d;", tab 1 ++ localName1 ++ " = " ++ localName2 ++ ";"]

end Names

/-! ## The elements of the struct -/

/-- An element of the struct: a variable or a memory buffer, each with its own way to
be printed. -/
inductive Element
  | var (v : Variable)
  | buffer (b : MemoryBuffer)

/-- **The elements**, in their order: the variables but for those that are passed
over, and then the buffers that are no elements of others. -/
def elements (g : Globals) : List Element :=
  (g.globalVars.filter fun v => !v.skipped).map .var ++
    (g.buffers.filter fun b => !b.collective).map .buffer

/-- The declaration of an element. -/
def Element.field (names : ℕ → String) : Element → String
  | .var v => tab 1 ++ v.decl names ++ ";"
  | .buffer b => tab 1 ++ b.aliasDecl names ++ ";"

/-- The initialiser of an element; a buffer's is printed when it is added. -/
def Element.initialiser (addNames names : ℕ → String) : Element → String
  | .var v => tab 2 ++ v.initStr ++ ", // " ++ names v.var
  | .buffer b => b.initLine addNames

section Calls

variable {addNames : ℕ → String} {g g' : Globals} {c : Call} {cs : List Call}

/-- **What the calls keep**: a line for each buffer that is not itemised,
in the order of the buffers. -/
def BuffersWritten (addNames : ℕ → String) (g : Globals) : Prop :=
  g.structBuffInit = (g.buffers.filter fun b => !b.collective).map (MemoryBuffer.initLine addNames)

theorem BuffersWritten.call (hg : BuffersWritten addNames g) (h : c.run addNames g = some g') :
    BuffersWritten addNames g' := by
  unfold BuffersWritten at hg ⊢
  cases c with
  | addGlobalVariable v =>
    cases h
    exact hg
  | addLocalMemoryBuffer b =>
    simp only [Call.run, addLocalMemoryBuffer] at h
    split at h
    · split at h <;> rename_i hcoll <;> cases h <;> simp [hg, hcoll]
    · cases h
  | addGlobalMemoryBuffer b =>
    simp only [Call.run, addGlobalMemoryBuffer] at h
    split at h
    · split at h <;> rename_i hcoll <;> cases h <;> simp [hg, hcoll]
    · cases h

theorem BuffersWritten.calls (hg : BuffersWritten addNames g)
    (h : runCalls addNames cs g = some g') : BuffersWritten addNames g' := by
  induction cs generalizing g with
  | nil =>
    cases h
    exact hg
  | cons c cs ih =>
    obtain ⟨g₁, hcall, hrest⟩ := Option.bind_eq_some_iff.mp h
    exact ih (hg.call hcall) hrest

/-- The lines of the variables are those of the ones not skipped. -/
theorem varLines_eq (names : ℕ → String) (vars : List Variable) :
    vars.flatMap (fun v =>
      match v.array with
      | some a =>
        if a.collective then []
        else [tab 2 ++ a.buildInitializerStr (v.init :: a.moreInitValues) ++ ", // " ++ names v.var]
      | none => [tab 2 ++ v.init ++ ", // " ++ names v.var]) =
    (vars.filter fun v => !v.skipped).map fun v => tab 2 ++ v.initStr ++ ", // " ++
      names v.var := by
  induction vars with
  | nil => rfl
  | cons v vars ih =>
    rw [List.flatMap_cons, ih, List.filter_cons]
    cases ha : v.array with
    | none => simp [Variable.skipped, Variable.initStr, ha]
    | some a =>
      cases hc : a.collective with
      | true => simp [Variable.skipped, ha, hc]
      | false => simp [Variable.skipped, Variable.initStr, ha, hc]

end Calls

/-- **The fields and the initialisers correspond.** After any calls, from any list of
variables, both are printed for the same elements in the same order, whatever the
names are when each is printed. So an initialiser never lands in the field of another
variable. -/
theorem struct_corresponds (vars : List Variable) (cs : List Call) (addNames : ℕ → String)
    {g : Globals} (h : runCalls addNames cs { globalVars := vars } = some g)
    (defNames initNames : ℕ → String)
    (structType structTypePtr structVar localName1 localName2 : String) :
    outputStructDefinition defNames structType g =
      [structType ++ " \x7b"] ++ g.elements.map (Element.field defNames) ++ ["\x7d;"] ∧
    outputStructInit initNames structType structTypePtr structVar localName1 localName2 g =
      [tab 1 ++ structType ++ " " ++ localName1 ++ ";",
        tab 1 ++ structTypePtr ++ " " ++ structVar ++ " = &" ++ localName1 ++ ";",
        tab 1 ++ structType ++ " " ++ localName2 ++ " = \x7b"] ++
      g.elements.map (Element.initialiser addNames initNames) ++
      [tab 1 ++ "\x7d;", tab 1 ++ localName1 ++ " = " ++ localName2 ++ ";"] := by
  have hstart : BuffersWritten addNames { globalVars := vars } := rfl
  have hwritten := hstart.calls h
  constructor
  · simp only [outputStructDefinition, elements, List.map_append, List.map_map, List.append_assoc]
    rfl
  · unfold outputStructInit
    rw [varLines_eq, hwritten]
    simp only [elements, List.map_append, List.map_map, List.append_assoc]
    rfl

/-- A local buffer, one of its items, and a global buffer. -/
def itemCalls : List Call :=
  [.addLocalMemoryBuffer ⟨1, .kLocal, "__local uint ", false⟩,
    .addLocalMemoryBuffer ⟨2, .kLocal, "__local uint ", true⟩,
    .addGlobalMemoryBuffer ⟨3, .kGlobal, "__global uint ", false⟩]

/-- The names of the variable and of the buffers. -/
def itemNames (n : ℕ) : String :=
  ["g_1", "l_atomic_input", "l_atomic_input", "g_atomic_input"].getD n ""

theorem struct_corresponds_items : ∃ g,
    runCalls itemNames itemCalls { globalVars := [⟨0, "int ", "7", none⟩] } = some g ∧
      g.elements.length = 3 ∧ outputStructDefinition itemNames "struct S0" g =
        ["struct S0 \x7b"] ++ g.elements.map (Element.field itemNames) ++ ["\x7d;"] := by
  refine ⟨_, rfl, rfl, ?_⟩
  exact (struct_corresponds [⟨0, "int ", "7", none⟩] itemCalls itemNames rfl itemNames
    itemNames "struct S0"
    "struct S0*" "p_2" "c_3" "c_4").1

end Globals

end CLSmith
