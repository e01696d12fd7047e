import CLSmith.Facts.Fact
/-!
# Facts of assignments

Types, variables and their fields, what pointers can point to, and what
`FactPointTo` and `FactUnion` conclude from an assignment, up to
`FactMgr::update_fact_for_assign`. A variable stands for its collective one:
`get_collective` has been applied. Calls of user functions are left out, and
unnamed padding, which without bit-fields there is none of.
-/

namespace CLSmith

namespace Facts

/-! ## Types -/

mutual

/-- **A type**: of a size, to what it points, or with its fields. Pointers and unions
are the types there are facts about. -/
inductive Ty
  | simple (size : ℕ)
  | pointer (ptrType : Ty)
  | struct (packed : Bool) (fields : Fields)
  | union (fields : Fields)

/-- The types of fields, with the lengths of bit-fields. -/
inductive Fields
  | nil
  | cons (type : Ty) (bitfieldLength : Option ℕ) (rest : Fields)

end

namespace Fields

def get : Fields → ℕ → Option Ty
  | nil, _ => none
  | cons t _ _, 0 => some t
  | cons _ _ rest, i + 1 => rest.get i

end Fields

namespace Ty

def isPointer : Ty → Bool
  | pointer _ => true
  | _ => false

def isStruct : Ty → Bool
  | struct _ _ => true
  | _ => false

def isUnion : Ty → Bool
  | union _ => true
  | _ => false

/-- `is_aggregate`. -/
def isAggregate : Ty → Bool
  | struct _ _ => true
  | union _ => true
  | _ => false

def fields : Ty → Fields
  | struct _ fields => fields
  | union fields => fields
  | _ => .nil

/-- `get_indirect_level`. -/
def indirectLevel : Ty → ℕ
  | pointer t => t.indirectLevel + 1
  | _ => 0

end Ty

mutual

/-- `has_bitfields`: a union's own lengths count, but not those of a union that is a
field. -/
def Ty.hasBitfields : Ty → Bool
  | .struct _ fields => fields.hasBitfields
  | .union fields => fields.hasBitfields
  | _ => false

def Fields.hasBitfields : Fields → Bool
  | .nil => false
  | .cons t len rest => len.isSome || (t.isStruct && t.hasBitfields) || rest.hasBitfields

end

mutual

/-- **`has_padding`.** A struct has it unless it is packed, and so has what contains
one that does. -/
def Ty.hasPadding : Ty → Bool
  | .struct packed fields => !packed || fields.hasPadding
  | .union fields => fields.hasPadding
  | _ => false

def Fields.hasPadding : Fields → Bool
  | .nil => false
  | .cons t len rest => len.isSome || t.hasPadding || rest.hasPadding

end

mutual

/-- `SizeInBytes`, `none` for `SIZE_UNKNOWN`; for a pointer it is nought. -/
def Ty.sizeInBytes : Ty → Option ℕ
  | .simple size => some size
  | .pointer _ => some 0
  | .union fields => fields.maxSize
  | .struct packed fields => if packed && !fields.hasBitfields then fields.totalSize else none

def Fields.maxSize : Fields → Option ℕ
  | .nil => some 0
  | .cons t len rest => do
    let sz ← match len with
      | some n => some ((n + 7) / 8 * 8)
      | none => t.sizeInBytes
    return max sz (← rest.maxSize)

def Fields.totalSize : Fields → Option ℕ
  | .nil => some 0
  | .cons t _ rest => do return (← t.sizeInBytes) + (← rest.totalSize)

end

/-! ## Variables -/

/-- **A variable**: a special pointer target, or a field of a named variable,
by the indices of the fields from the innermost out. -/
inductive Variable (N : Type)
  | null | garbage | tbd
  | named (name : N) (path : List ℕ)
deriving DecidableEq

/-- What is declared under a name: its type, and whether it is an array of that. -/
structure Decl where
  type : Ty
  isArray : Bool

section

variable {N : Type} (D : N → Decl)

/-- The type of a field. -/
def typeAt (n : N) : List ℕ → Ty
  | [] => (D n).type
  | i :: path => ((typeAt n path).fields.get i).getD (.simple 0)

/-- `is_inside_union_field`. -/
def insideUnionField (n : N) : List ℕ → Bool
  | [] => false
  | _ :: path => (typeAt D n path).isUnion || insideUnionField n path

/-- The union field a variable is or is in: the loop of
`is_nonreadable_field`. -/
def unionFieldAt (n : N) : List ℕ → List ℕ
  | [] => []
  | i :: path => if (typeAt D n path).isUnion then i :: path else unionFieldAt n path

/-- `get_container_union`. -/
def containerUnion (n : N) : List ℕ → List ℕ
  | [] => []
  | i :: path => if (typeAt D n (i :: path)).isUnion then i :: path else containerUnion n path

/-- The loop over the fields before one. -/
def Fields.bitfieldBefore : Fields → ℕ → Bool
  | .cons t len rest, i + 1 => len.isSome || t.hasBitfields || rest.bitfieldBefore i
  | _, _ => false

/-- `is_packed_after_bitfield`. -/
def packedAfterBitfield (n : N) : List ℕ → Bool
  | [] => false
  | i :: path =>
    (match typeAt D n path with
      | .struct true fields => fields.bitfieldBefore i
      | _ => false) || packedAfterBitfield n path

namespace Variable

variable {D}

/-- `is_special_ptr`. -/
def isSpecialPtr : Variable N → Bool
  | named _ _ => false
  | _ => true

/-- `field_var_of`. -/
def fieldVarOf : Variable N → Option (Variable N)
  | named n (_ :: path) => some (named n path)
  | _ => none

/-- `get_field_id`. -/
def fieldId : Variable N → ℤ
  | named _ (i :: _) => i
  | _ => -1

variable (D)

def type : Variable N → Ty
  | named n path => typeAt D n path
  | _ => .simple 0

def isArray : Variable N → Bool
  | named n [] => (D n).isArray
  | _ => false

/-- `is_union_field`. -/
def isUnionField (v : Variable N) : Bool :=
  match v.fieldVarOf with
  | some w => (w.type D).isUnion
  | none => false

def isInsideUnionField : Variable N → Bool
  | named n path => insideUnionField D n path
  | _ => false

def getContainerUnion : Variable N → Variable N
  | named n path => named n (containerUnion D n path)
  | v => v

def isPackedAfterBitfield : Variable N → Bool
  | named n path => packedAfterBitfield D n path
  | _ => false

end Variable

end

mutual

/-- The pointer fields of a variable, from the index `i` of its fields on. -/
def Fields.findPointerFields {N : Type} (n : N) (path : List ℕ) :
    Fields → ℕ → List (Variable N)
  | .nil, _ => []
  | .cons t _ rest, i =>
    Ty.pointerFields n (i :: path) t ++ rest.findPointerFields n path (i + 1)

/-- A field, if it is a pointer, or the pointers among its fields. -/
def Ty.pointerFields {N : Type} (n : N) (path : List ℕ) : Ty → List (Variable N)
  | .pointer _ => [.named n path]
  | .struct _ fields => fields.findPointerFields n path 0
  | .union fields => fields.findPointerFields n path 0
  | .simple _ => []

end

/-- `find_pointer_fields`. -/
def Variable.findPointerFields {N : Type} (D : N → Decl) : Variable N → List (Variable N)
  | named n path => (typeAt D n path).fields.findPointerFields n path 0
  | _ => []

/-! ## Expressions -/

/-- `Lhs`: a variable that is dereferenced until it has the type. -/
structure Lhs (N : Type) where
  var : Variable N
  type : Ty

/-- **An expression.** Of a constant and of an operation is kept whether it
`equals` 0, and of a constant whether its first field is `"0"`. -/
inductive Expr (N : Type)
  | constant (type : Ty) (zero firstZero : Bool)
  | var (var : Variable N) (type : Ty)
  | function (type : Ty) (zero : Bool)
  | assignment (lhs : Lhs N) (rhs : Expr N)
  | comma (lhs rhs : Expr N)

namespace Expr

variable {N : Type}

def type : Expr N → Ty
  | constant t _ _ => t
  | var _ t => t
  | function t _ => t
  | assignment lhs _ => lhs.type
  | comma _ rhs => rhs.type

/-- `equals(0)`. -/
def equalsZero : Expr N → Bool
  | constant _ zero _ => zero
  | var _ _ => false
  | function _ zero => zero
  | assignment _ rhs => rhs.equalsZero
  | comma _ rhs => rhs.equalsZero

end Expr

section Transfer

variable {N : Type} [DecidableEq N] (D : N → Decl) (facts : FactVec (Variable N))

/-! ## Pointees -/

/-- `merge_pointees_of_pointers`, with the pointees found so far. -/
def mergePointeesOfPointers (pointee_vars : List (Variable N)) :
    List (Variable N) → List (Variable N)
  | [] => pointee_vars
  | p :: ptrs =>
    if p.isSpecialPtr then mergePointeesOfPointers pointee_vars ptrs
    else
      match findRelatedFact facts (.pointTo p []) with
      | some (.pointTo _ pointToVars) =>
        mergePointeesOfPointers (addVariables pointee_vars pointToVars) ptrs
      | _ => mergePointeesOfPointers pointee_vars ptrs

/-- **`merge_pointees_of_pointer`**: what a pointer dereferenced so many times may be,
by the facts. -/
def mergePointeesOfPointer (ptr : Variable N) : ℕ → List (Variable N)
  | 0 => [ptr]
  | indirect + 1 => mergePointeesOfPointers facts [] (mergePointeesOfPointer ptr indirect)

/-- `get_lvars`: the variables a left side can be. -/
def Lhs.getLvars (lhs : Lhs N) : List (Variable N) :=
  mergePointeesOfPointer facts lhs.var ((lhs.var.type D).indirectLevel - lhs.type.indirectLevel)

/-! ## `FactPointTo` -/

namespace FactPointTo

/-- `make_facts`. -/
def makeFacts (lvars set : List (Variable N)) : FactVec (Variable N) :=
  lvars.map fun v => .pointTo v set

/-- The loop of `rhs_to_lhs_transfer` over the aggregates on the right. -/
def aggregateFacts (lvars : List (Variable N)) :
    FactVec (Variable N) → List (Variable N) → FactVec (Variable N)
  | ret_facts, [] => ret_facts
  | ret_facts, v :: vars =>
    let pointers := v.findPointerFields D
    let new_facts := (lvars.zip pointers).map fun (l, p) =>
      .pointTo l (mergePointeesOfPointer facts p 1)
    aggregateFacts lvars (mergeFacts ret_facts new_facts).1 vars

/-- **`rhs_to_lhs_transfer`.** -/
def rhsToLhsTransfer (lvars : List (Variable N)) (rhs : Expr N) : FactVec (Variable N) :=
  if lvars = [] then []
  else if !rhs.type.isPointer && !rhs.type.isUnion then
    if rhs.equalsZero && rhs.type.sizeInBytes.any (8 ≤ ·) then makeFacts lvars [.null]
    else makeFacts lvars [.garbage]
  else
    match rhs with
    | .constant type zero firstZero =>
      if type.isPointer then makeFacts lvars [if zero then .null else .garbage]
      else
        match lvars.head? with
        | some v =>
          if v.isUnionField D && v.fieldId = 0 && firstZero then makeFacts lvars [.null]
          else makeFacts lvars [.garbage]
        | none => []
    | .var var type =>
      if (var.type D).indirectLevel < type.indirectLevel then makeFacts lvars [var]
      else
        let indirect := (var.type D).indirectLevel - type.indirectLevel
        if type.isAggregate then
          aggregateFacts D facts lvars [] (mergePointeesOfPointer facts var indirect)
        else makeFacts lvars (mergePointeesOfPointer facts var (indirect + 1))
    | .function _ _ => []
    | .assignment _ rhs => rhsToLhsTransfer lvars rhs
    | .comma _ rhs => rhsToLhsTransfer lvars rhs

/-- **`abstract_fact_for_assign`.** -/
def abstractFactForAssign (lhs : Lhs N) (rhs : Expr N) : FactVec (Variable N) :=
  let lvars := lhs.getLvars D facts
  if lhs.type.isPointer then rhsToLhsTransfer D facts lvars rhs
  else
    lvars.flatMap fun v =>
      let v := if v.isInsideUnionField D then v.getContainerUnion D else v
      rhsToLhsTransfer D facts (v.findPointerFields D) rhs

end FactPointTo

/-! ## `FactUnion` -/

namespace FactUnion

/-- `make_facts`. -/
def makeFacts (vars : List (Variable N)) (fid : ℤ) : FactVec (Variable N) :=
  vars.map fun v => .unionWrite v fid

/-- `get_last_written_fid` of the fact of a variable. -/
def lastWrittenFid (v : Variable N) : Option ℤ :=
  match findRelatedFact facts (.unionWrite v top) with
  | some (.unionWrite _ fid) => some fid
  | _ => none

/-- `join_var_facts`, with the fact joined so far, which is made the next
variable's. -/
def joinVarFacts : Option (Fact (Variable N)) → List (Variable N) → Option (Fact (Variable N))
  | fu, [] => fu
  | fu, v :: vars =>
    match lastWrittenFid facts v, fu with
    | some fid, some (.unionWrite _ m) =>
      joinVarFacts (some ((Fact.unionWrite v m).join (.unionWrite v fid))) vars
    | some fid, _ => joinVarFacts (some (.unionWrite v fid)) vars
    | none, fu => joinVarFacts fu vars

/-- **`rhs_to_lhs_transfer`.** -/
def rhsToLhsTransfer (lvars : List (Variable N)) : Expr N → FactVec (Variable N)
  | .constant _ _ _ => makeFacts lvars 0
  | .var var type =>
    let indirect := (var.type D).indirectLevel - type.indirectLevel
    match joinVarFacts facts none (mergePointeesOfPointer facts var indirect) with
    | some (.unionWrite _ fid) => makeFacts lvars fid
    | _ => []
  | .function _ _ => []
  | .assignment _ rhs => rhsToLhsTransfer lvars rhs
  | .comma _ rhs => rhsToLhsTransfer lvars rhs

/-- What is concluded of one of the variables a left side can be. -/
def factForLvar (lvars : List (Variable N)) (v : Variable N) : Option (Fact (Variable N)) :=
  if v.isUnionField D then
    -- one that is uncertain leaves the union unreadable
    if lvars.length > 1 then v.fieldVarOf.map fun u => .unionWrite u bottom
    else v.fieldVarOf.map fun u => .unionWrite u v.fieldId
  else if v.isInsideUnionField D && ((v.type D).hasPadding || v.isPackedAfterBitfield D) then
    some (.unionWrite (v.getContainerUnion D) bottom)
  else none

/-- **`abstract_fact_for_assign`.** -/
def abstractFactForAssign (lhs : Lhs N) (rhs : Expr N) : FactVec (Variable N) :=
  let lvars := lhs.getLvars D facts
  if lhs.type.isUnion then rhsToLhsTransfer D facts lvars rhs
  else lvars.filterMap (factForLvar D lvars)

/-- **`is_nonreadable_field`.** A field of a union may be read where the fact of the
union says that it was the last one written. -/
def isNonreadableField : Variable N → Bool
  | .named n path =>
    if insideUnionField D n path then
      let v : Variable N := .named n (unionFieldAt D n path)
      match v.fieldVarOf with
      | some u =>
        match findRelatedFact facts (.unionWrite u v.fieldId) with
        | some fu => !(Fact.unionWrite u v.fieldId).imply fu
        | none => true
      | none => true
    else false
  | _ => false

end FactUnion

/-! ## `FactMgr` -/

/-- `renew_fact`. -/
def renewFact : FactVec (Variable N) → Fact (Variable N) → FactVec (Variable N)
  | [], new_fact => [new_fact]
  | f :: facts, new_fact =>
    if new_fact.isRelated f then
      if new_fact.equal f then f :: facts else new_fact :: facts
    else f :: renewFact facts new_fact

/-- The facts of one category go into the others: a single one that is not of
an array takes the old one's place. -/
def updateFacts (inputs facts : FactVec (Variable N)) : FactVec (Variable N) :=
  match facts with
  | [f] => if f.getVar.isArray D then (mergeFact inputs f).1 else renewFact inputs f
  | facts => (mergeFacts inputs facts).1

/-- The facts once `FactPointTo` has had its turn. -/
def pointToUpdated (lhs : Lhs N) (rhs : Expr N) (inputs : FactVec (Variable N)) :
    FactVec (Variable N) :=
  updateFacts D inputs (FactPointTo.abstractFactForAssign D inputs lhs rhs)

/-- **`update_fact_for_assign`**: the points-to facts first, then the facts of
unions. -/
def updateFactForAssign (lhs : Lhs N) (rhs : Expr N) (inputs : FactVec (Variable N)) :
    FactVec (Variable N) :=
  let inputs := pointToUpdated D lhs rhs inputs
  updateFacts D inputs (FactUnion.abstractFactForAssign D inputs lhs rhs)

end Transfer

end Facts

end CLSmith
