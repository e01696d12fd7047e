import CLSmith.StringUtils
import Mathlib.Logic.Function.Basic
/-!
# Arrays, their elements and the fields of these

Variables as the generator holds them: objects in a table, fields pointing to
what they are fields of and back. An itemized element is a copy of its array
with index expressions; its fields are variables of their own, and
`get_collective` takes each to the field of the array it stands for, by the
field numbers in its name.

Of a type what `create_field_vars` reads is kept, of an index expression the
text it prints. Qualifiers and initializers are left out.
-/

namespace CLSmith

namespace Variables

open Common CString StdString StringUtils

/-! ## Types -/

mutual

/-- A type: a structure or union, or anything without fields. -/
inductive Ty
  | scalar
  | aggregate (fields : Fields)

/-- The fields of a type, each with its bit-field length, `-1` for none. -/
inductive Fields
  | nil
  | cons (type : Ty) (length : ℤ) (rest : Fields)

end

/-- `is_unamed_padding`. -/
def isUnamedPadding (length : ℤ) : Bool := decide (length = 0)

/-- The types of the fields that have names. -/
def Fields.named : Fields → List Ty
  | nil => []
  | cons t n rest => if isUnamedPadding n then rest.named else t :: rest.named

def Ty.named : Ty → List Ty
  | scalar => []
  | aggregate fields => fields.named

/-! ## Variables -/

/-- **A variable**, with the members of `ArrayVariable` where `isArray` is set. -/
structure Variable where
  name : List Char := []
  type : Ty := .scalar
  fieldVarOf : Option ℕ := none
  isArray : Bool := false
  fieldVars : List ℕ := []
  collective : Option ℕ := none
  isGlobal : Bool := true
  indices : List (List Char) := []

/-- The variables there are, and how many. `prefixed` is
`get_prefixed_name`, which asks the random number generator. -/
structure Store where
  var : ℕ → Variable := fun _ => {}
  next : ℕ := 0

namespace Store

variable (prefixed : List Char → List Char) (σ : Store)

/-- `new`. -/
def alloc (x : Variable) : Store := ⟨Function.update σ.var σ.next x, σ.next + 1⟩

/-- `field_vars.push_back`. -/
def pushField (v w : ℕ) : Store :=
  { σ with
    var := Function.update σ.var v { σ.var v with fieldVars := (σ.var v).fieldVars ++ [w] } }

/-- `get_actual_name`. -/
def getActualName (v : ℕ) : List Char :=
  if (σ.var v).isGlobal then prefixed (σ.var v).name else (σ.var v).name

/-- `ArrayVariable::Output`, which asserts that an element has indices. -/
def output (v : ℕ) : Option (List Char) :=
  match (σ.var v).collective with
  | none => some (σ.getActualName prefixed v)
  | some _ =>
    if (σ.var v).indices = [] then none
    else some (σ.getActualName prefixed v ++
      (σ.var v).indices.flatMap fun index => '[' :: (index ++ [']']))

/-- The name of a field. -/
def fieldName (text : List Char) (j : ℕ) : List Char := text ++ '.' :: 'f' :: decimal j

mutual

/-- `Variable::CreateVariable` of a field, with its own fields. -/
def createField : Ty → List Char → ℕ → Store → Store
  | .scalar, name, parent, σ => σ.alloc { name := name, type := .scalar, fieldVarOf := some parent }
  | .aggregate fields, name, parent, σ =>
    createFields fields name 0 σ.next
      (σ.alloc { name := name, type := .aggregate fields, fieldVarOf := some parent })

/-- The loop of `create_field_vars` for the variable `v`, whose text is before
the field numbers. -/
def createFields : Fields → List Char → ℕ → ℕ → Store → Store
  | .nil, _, _, _, σ => σ
  | .cons t n rest, text, j, v, σ =>
    if isUnamedPadding n then createFields rest text j v σ
    else createFields rest text (j + 1) v
      ((createField t (fieldName text j) v σ).pushField v σ.next)

end

/-- `create_field_vars` where the type has fields. -/
def createFieldVars (v : ℕ) : Option Store :=
  match (σ.var v).type with
  | .scalar => some σ
  | .aggregate fields =>
    (if (σ.var v).isArray then σ.output prefixed v else some (σ.var v).name).map
      fun text => createFields fields text 0 v σ

/-- `Variable::CreateVariable`. -/
def createVariable (name : List Char) (type : Ty) (isGlobal : Bool) : Option Store :=
  (σ.alloc { name := name, type := type, isGlobal := isGlobal }).createFieldVars prefixed σ.next

/-- `ArrayVariable::CreateArrayVariable`. -/
def createArrayVariable (name : List Char) (type : Ty) (isGlobal : Bool) : Option Store :=
  (σ.alloc { name := name, type := type, isArray := true, isGlobal := isGlobal }).createFieldVars
    prefixed σ.next

/-- **`itemize`** in any of its forms: a copy of the array, in the block or
among the globals, with indices. -/
def itemize (v : ℕ) (indices : List (List Char)) (isGlobal : Bool) : Option Store :=
  if (σ.var v).collective.isSome then none
  else
    (σ.alloc { σ.var v with
      fieldVars := []
      indices := (σ.var v).indices ++ indices
      collective := some v
      isGlobal := isGlobal }).createFieldVars prefixed σ.next

/-! ## The collective of a variable -/

/-- `is_array_field`, as far as the fuel goes. -/
def isArrayFieldFrom : ℕ → ℕ → Bool
  | 0, _ => false
  | n + 1, v =>
    match (σ.var v).fieldVarOf with
    | some p => isArrayFieldFrom n p
    | none => (σ.var v).isArray

/-- A variable is younger than what it is a field of. -/
def isArrayField (v : ℕ) : Bool := σ.isArrayFieldFrom (v + 1) v

/-- The loop that goes up to the array, as far as the fuel goes. -/
def topArray : ℕ → Option ℕ → Option ℕ
  | 0, _ => none
  | _, none => none
  | n + 1, some p => if (σ.var p).isArray then some p else topArray n (σ.var p).fieldVarOf

/-- `field_vars[index]`, with the assertion that it is there. -/
def fieldAt (v : ℕ) (index : ℤ) : Option ℕ :=
  if 0 ≤ index then (σ.var v).fieldVars[index.toNat]? else none

/-- The loop over the dots of the field names. -/
def followNames (fieldNames : List Char) : ℕ → Option ℕ → ℕ → Option ℕ
  | _, none, coll => some coll
  | 0, some _, _ => none
  | n + 1, some pos1, coll => do
    let pos2 := find fieldNames '.' (pos1 + 1)
    let s ← match pos2 with
      | none => substr fieldNames (pos1 + 2)
      | some pos2 => substrLen fieldNames (pos1 + 2) (pos2 - pos1 - 2)
    let index ← str2int s
    followNames fieldNames n pos2 (← σ.fieldAt coll index)

/-- **`get_collective`** of `Variable` and, where `isArray` is set, of
`ArrayVariable`; a failed assertion ends the program. -/
def getCollective (v : ℕ) : Option ℕ :=
  if (σ.var v).isArray then some ((σ.var v).collective.getD v)
  else if σ.isArrayField v then do
    let parent ← σ.topArray (v + 1) (σ.var v).fieldVarOf
    let coll := (σ.var parent).collective.getD parent
    if coll = parent then some v
    else do
      let pos3 ← findLastOf (σ.var v).name ']'
      let fieldNames ← substr (σ.var v).name pos3
      σ.followNames fieldNames fieldNames.length (find fieldNames '.' 0) coll
  else some v

/-- The field variable at a path of field numbers. -/
def follow (v : ℕ) : List ℕ → Option ℕ
  | [] => some v
  | i :: path => ((σ.var v).fieldVars[i]?).bind fun w => follow w path

/-- **The stores the generator can make.** What `get_prefixed_name` answers may change
from one variable to the next, as it does in the exhaustive mode. -/
inductive Made : Store → Prop
  | empty : Made {}
  | variable {prefixed : List Char → List Char} {σ σ' : Store} {name : List Char} {type : Ty}
      {isGlobal : Bool} (h : Made σ)
      (hstep : σ.createVariable prefixed name type isGlobal = some σ') : Made σ'
  | array {prefixed : List Char → List Char} {σ σ' : Store} {name : List Char} {type : Ty}
      {isGlobal : Bool} (h : Made σ)
      (hstep : σ.createArrayVariable prefixed name type isGlobal = some σ') : Made σ'
  | element {prefixed : List Char → List Char} {σ σ' : Store} {v : ℕ}
      {indices : List (List Char)} {isGlobal : Bool} (h : Made σ) (hv : v < σ.next)
      (harray : (σ.var v).isArray = true)
      (hstep : σ.itemize prefixed v indices isGlobal = some σ') : Made σ'

end Store

end Variables

end CLSmith
