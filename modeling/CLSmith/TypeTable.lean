import CLSmith.BuiltIn.Select
import CLSmith.Common.Events
import CLSmith.CVQualifiers
import Mathlib.Logic.Function.Basic
/-!
# The types of a program

`GenerateAllTypes` fills `AllTypes`: the simple types, then structs, then
unions, each with fields of the types there are. Some simple types are there
before: whoever asks `get_simple_type` for one that is not in the table has it
made. Pointer types are derived on demand. `OutputStructUnionDeclarations`
writes the definitions of the structs and unions that are used, and of those
these are made of.

These are the tables of random generation; the exhaustive one enumerates
structs in another way.
-/

namespace CLSmith

namespace TypeTable

open BuiltIn (SimpleType)

/-! ## Types -/

/-- **`Type`**, one object of it: there can be several of one simple type, each at an
address of its own. A struct or union has a `sid`. The types that are in no table, such
as the vectors, are only pointed to. -/
inductive Typ
  | simple (address : ℕ) (simpleType : SimpleType)
  | pointer (address : ℕ) (ptrType : Typ)
  | aggregate (sid : ℕ) (isStruct packed : Bool) (fields : List Typ)
      (qfers : List CVQualifiers) (bitfieldsLength : List ℤ)
  | other (address : ℕ)

namespace Typ

def isAggregate : Typ → Bool
  | aggregate .. => true
  | _ => false

def isStruct : Typ → Bool
  | aggregate _ s .. => s
  | _ => false

def isUnion : Typ → Bool
  | aggregate _ s .. => !s
  | _ => false

def isLongLong : Typ → Bool
  | simple _ .eLongLong | simple _ .eULongLong => true
  | _ => false

/-- `eType == eSimple && simple_type == st`. -/
def isSimple (st : SimpleType) : Typ → Bool
  | simple _ s => decide (s = st)
  | _ => false

def fields : Typ → List Typ
  | aggregate _ _ _ fs _ _ => fs
  | _ => []

def qfers : Typ → List CVQualifiers
  | aggregate _ _ _ _ qs _ => qs
  | _ => []

def bitfieldsLength : Typ → List ℤ
  | aggregate _ _ _ _ _ ls => ls
  | _ => []

/-- Whether two `Type*` are equal. -/
def same : Typ → Typ → Bool
  | simple a _, simple a' _ => decide (a = a')
  | pointer a _, pointer a' _ => decide (a = a')
  | aggregate sid .., aggregate sid' .. => decide (sid = sid')
  | other a, other a' => decide (a = a')
  | _, _ => false

/-- A pointer type to this type. -/
def pointsTo (t : Typ) : Typ → Bool
  | pointer _ t' => t'.same t
  | _ => false

/-- An aggregate with this `sid`. -/
def hasSid (sid : ℕ) : Typ → Bool
  | aggregate sid' .. => decide (sid = sid')
  | _ => false

mutual

/-- `get_struct_depth`. -/
def getStructDepth : Typ → ℕ
  | aggregate _ s _ fs _ _ => if s then 1 + maxStructDepth fs else 0
  | _ => 0

/-- The greatest depth of the fields. -/
def maxStructDepth : List Typ → ℕ
  | [] => 0
  | f :: fs => max (getStructDepth f) (maxStructDepth fs)

end

mutual

/-- `has_bitfields`. -/
def hasBitfields : Typ → Bool
  | aggregate _ _ _ fs _ ls => hasBitfieldsIn fs ls
  | _ => false

/-- The loop of `has_bitfields`. -/
def hasBitfieldsIn : List Typ → List ℤ → Bool
  | [], _ => false
  | f :: fs, ls =>
    decide (0 ≤ ls.headD (-1)) || (f.isStruct && hasBitfields f) || hasBitfieldsIn fs ls.tail

end

end Typ

/-! ## Fields -/

/-- The options the tables depend on, with their defaults. -/
structure Options where
  useStruct : Bool := true
  useUnion : Bool := true
  bitfields : Bool := true
  ccomp : Bool := false
  packedStruct : Bool := true
  returnStructs : Bool := true
  pointers : Bool := true
  int8 : Bool := true
  intSize : ℕ := 4
  maxStructFields : ℕ := 10
  fixedStructFields : Bool := false
  maxUnionFields : ℕ := 5
  maxNestedStructLevel : ℕ := 3
  /-- `SIMPLE_TYPES_PROB_FILTER`: what is not to be drawn. -/
  simpleTypesFilter : SimpleType → Bool := fun s => decide (s = .eVoid)

/-- `random_fields`, `qualifiers` and `fields_length`, as they are filled. -/
structure Fields where
  types : List Typ := []
  qualifiers : List CVQualifiers := []
  lengths : List ℤ := []

def Fields.push (fs : Fields) (t : Typ) (q : CVQualifiers) (length : ℤ) : Fields :=
  ⟨fs.types ++ [t], fs.qualifiers ++ [q], fs.lengths ++ [length]⟩

/-- Where `GenerateAllTypes` is; `early` is before it. -/
inductive Phase
  | early | structs | unions | done
deriving DecidableEq

/-- `AllTypes`, `derived_types`, `simple_types` and `sequence`. -/
structure State where
  allTypes : List Typ := []
  derivedTypes : List Typ := []
  simpleTypes : SimpleType → Option Typ := fun _ => none
  /-- The addresses that are taken. -/
  addresses : ℕ := 0
  sequence : ℕ := 0
  /-- The aggregates with `used` set. -/
  used : List ℕ := []
  phase : Phase := .early

namespace State

variable (σ : State)

/-- `AllTypes.push_back(new Type(st))`. -/
def pushSimple (st : SimpleType) : State :=
  { σ with allTypes := σ.allTypes ++ [.simple σ.addresses st], addresses := σ.addresses + 1 }

/-- **`GenerateSimpleTypes`**: those that are there already are made once more. -/
def generateSimpleTypes : State :=
  [SimpleType.eChar, .eShort, .eInt, .eLong, .eLongLong, .eUChar, .eUShort, .eUInt, .eULong,
    .eULongLong].foldl pushSimple σ

/-- **`get_simple_type`**: the one that was returned before, or else the last one of
`AllTypes`, or else a new one. -/
def getSimpleType (st : SimpleType) : Typ × State :=
  match σ.simpleTypes st with
  | some t => (t, σ)
  | none =>
    match (σ.allTypes.filter (·.isSimple st)).getLast? with
    | some t => (t, { σ with simpleTypes := Function.update σ.simpleTypes st (some t) })
    | none =>
      let t := Typ.simple σ.addresses st
      (t, { σ.pushSimple st with simpleTypes := Function.update σ.simpleTypes st (some t) })

/-- **`find_pointer_type`** with `add` set: the first derived type that points to `t`,
or a new one behind the others. -/
def findPointerType (t : Typ) : Typ × State :=
  match σ.derivedTypes.find? (Typ.pointsTo t) with
  | some d => (d, σ)
  | none =>
    let d := Typ.pointer σ.addresses t
    (d, { σ with derivedTypes := σ.derivedTypes ++ [d], addresses := σ.addresses + 1 })

end State

variable (o : Options)

/-- What is drawn for a bit-field: its sign, its qualifiers and its length, which may
have to be drawn again. -/
structure BitfieldDraw where
  sign : Bool
  qual : CVQualifiers
  length : ℕ
  /-- The second number, for one that must not have length zero. -/
  again : ℕ

/-- `length` of a bit-field after those of the fields there are. -/
def bitfieldLength (d : BitfieldDraw) (lengths : List ℤ) : Option ℕ :=
  let maxLength := o.intSize * 8
  if maxLength ≤ d.length then none
  else
    let noZeroLen := lengths.isEmpty || decide (lengths.getLast? = some 0)
    if d.length = 0 ∧ noZeroLen = true then
      if maxLength ≤ 2 then some 1
      else if maxLength - 1 ≤ d.again then none
      else some (d.again + 1)
    else some d.length

/-- **`make_one_bitfield`.** Its type is one of the two simple types of `int`, and the
length is drawn so that no two bit-fields of length zero are neighbours. -/
def makeOneBitfield (d : BitfieldDraw) (σ : State) (fs : Fields) : Option (State × Fields) :=
  let x := σ.getSimpleType (if d.sign then .eInt else .eUInt)
  (bitfieldLength o d fs.lengths).map fun (length : ℕ) => (x.2, fs.push x.1 d.qual length)

/-- `ChooseRandomTypeFilter`: whether a type is passed over. -/
def chooseRandomTypeFilter (forFieldVar : Bool) : Typ → Bool
  | .simple _ s => o.simpleTypesFilter s
  | t =>
    (t.isStruct && !o.returnStructs) ||
      (forFieldVar && decide (o.maxNestedStructLevel ≤ t.getStructDepth))

/-- `make_one_struct_field`; `i` is drawn. -/
def makeOneStructField (i : ℕ) (qual : CVQualifiers) (σ : State) (fs : Fields) :
    Option (State × Fields) :=
  match σ.allTypes[i]? with
  | some t => if chooseRandomTypeFilter o true t then none else some (σ, fs.push t qual (-1))
  | none => none

/-- What is drawn for a field of a struct: a bit-field, or a type of the table with
its qualifiers. -/
inductive FieldDraw
  | bitfield (d : BitfieldDraw)
  | field (i : ℕ) (qual : CVQualifiers)

/-- A field of `make_full_bitfields_struct_fields` or of `make_normal_struct_fields`:
a bit-field, if there are any, or another one. -/
def makeStructField : FieldDraw → State → Fields → Option (State × Fields)
  | .bitfield d, σ, fs => if o.bitfields then makeOneBitfield o d σ fs else none
  | .field i qual, σ, fs => makeOneStructField o i qual σ fs

/-- What is drawn for a field of a union: a bit-field, a struct, a pointer to `char`
or any other type of the table. -/
inductive UnionFieldDraw
  | bitfield (d : BitfieldDraw)
  | struct (i : ℕ) (qual : CVQualifiers)
  | charPointer (qual : CVQualifiers)
  | other (i : ℕ) (qual : CVQualifiers)

/-- **`make_one_union_field`**, up to the last round of its loop. Whatever is chosen
is no union and has no bit-fields in it, unless it is a bit-field itself. -/
def makeOneUnionField : UnionFieldDraw → State → Fields → Option (State × Fields)
  | .bitfield d, σ, fs => if o.bitfields && !o.ccomp then makeOneBitfield o d σ fs else none
  | .struct i qual, σ, fs =>
    match ((σ.allTypes.filter fun t => !t.hasBitfields).filter (·.isStruct))[i]? with
    | some t => some (σ, fs.push t qual (-1))
    | none => none
  | .charPointer qual, σ, fs =>
    if o.pointers && o.int8 then
      let x := σ.getSimpleType .eChar
      let y := x.2.findPointerType x.1
      some (y.2, fs.push y.1 qual (-1))
    else none
  | .other i qual, σ, fs =>
    match (σ.allTypes.filter fun t => !t.hasBitfields)[i]? with
    | some (.simple a s) =>
      if o.simpleTypesFilter s then none else some (σ, fs.push (.simple a s) qual (-1))
    | some t => if t.isUnion then none else some (σ, fs.push t qual (-1))
    | none => none

/-- The fields one after the other. -/
def makeFields {δ : Type} (one : δ → State → Fields → Option (State × Fields)) :
    List δ → State → Fields → Option (State × Fields)
  | [], σ, fs => some (σ, fs)
  | d :: ds, σ, fs => (one d σ fs).bind fun x => makeFields one ds x.1 x.2

/-- Whether `field_cnt` of a struct can be so much. -/
def Options.structFieldCnt (n : ℕ) : Bool :=
  if o.fixedStructFields then decide (n = o.maxStructFields)
  else decide (0 < n) && decide (n ≤ o.maxStructFields)

/-! ## The tables -/

/-- What a pointer type is asked for: one of `AllTypes`, a pointer type, or a type that is
in no table. -/
inductive Pointee
  | ofAllTypes (i : ℕ)
  | ofDerived (i : ℕ)
  | other (address : ℕ)

/-- **What happens to the tables**, before they are filled, while they are, and later. -/
inductive Event
  /-- `get_simple_type` is called. -/
  | getSimpleType (st : SimpleType)
  /-- `GenerateSimpleTypes`, and the ends of the loops of `GenerateAllTypes`. -/
  | nextPhase
  /-- `make_random_struct_type`; `coin` is for `packed`. -/
  | makeStruct (ds : List FieldDraw) (coin : Bool)
  /-- `make_random_union_type`. -/
  | makeUnion (ds : List UnionFieldDraw)
  /-- A struct is made that is in no table, for the globals or a message. -/
  | otherStruct
  /-- A type is chosen. -/
  | use (i : ℕ)
  /-- A pointer type is asked for. -/
  | derive (p : Pointee)

/-- `AllTypes.push_back(new Type(..))` of a struct or union. -/
def State.pushAggregate (σ : State) (isStruct packed : Bool) (fs : Fields) : State :=
  { σ with
    allTypes := σ.allTypes ++
      [.aggregate σ.sequence isStruct packed fs.types fs.qualifiers fs.lengths]
    sequence := σ.sequence + 1 }

/-- The type a pointer type is asked for. -/
def State.pointee (σ : State) : Pointee → Option Typ
  | .ofAllTypes i => σ.allTypes[i]?
  | .ofDerived i => σ.derivedTypes[i]?
  | .other address => some (.other address)

/-- **One event**: a simple type is asked for, a struct or union is made, a pointer
type is looked up, a type is marked as used, or the next phase begins. -/
def step (σ : State) : Event → Option State
  | .getSimpleType st => some (σ.getSimpleType st).2
  | .nextPhase =>
    match σ.phase with
    | .early => some { σ.generateSimpleTypes with phase := .structs }
    | .structs => some { σ with phase := .unions }
    | .unions => some { σ with phase := .done }
    | .done => none
  | .makeStruct ds coin =>
    if σ.phase ≠ .structs ∨ o.useStruct = false ∨ o.structFieldCnt ds.length = false then none
    else
      (makeFields (makeStructField o) ds σ {}).map fun x =>
        let packed := o.packedStruct && coin &&
          !(o.ccomp && (x.2.types.any (·.isAggregate) || x.2.types.any (·.isLongLong)))
        x.1.pushAggregate true packed x.2
  | .makeUnion ds =>
    if σ.phase ≠ .unions ∨ o.useUnion = false ∨ ds.length = 0 ∨ o.maxUnionFields < ds.length then
      none
    else (makeFields (makeOneUnionField o) ds σ {}).map fun x => x.1.pushAggregate false false x.2
  | .otherStruct => some { σ with sequence := σ.sequence + 1 }
  | .use i =>
    match σ.allTypes[i]? with
    | some (.aggregate sid ..) => some { σ with used := σ.used ++ [sid] }
    | _ => none
  | .derive p => (σ.pointee p).map fun t => (σ.findPointerType t).2

/-- **The runs**: any events, from the tables as the process starts with them. -/
def system : Common.System State := Common.eventSystem (step o) {}

/-! ## Output -/

mutual

/-- **`OutputStructUnion`**: the definitions written so far, and then. An aggregate is
`printed` if its definition is among them. -/
def outputStructUnion : Typ → List Typ → List Typ
  | .aggregate sid s p fs qs ls, out =>
    if out.any (·.hasSid sid) then out
    else outputFields fs out ++ [.aggregate sid s p fs qs ls]
  | _, out => out

/-- The loop over the fields: what the definition depends on. -/
def outputFields : List Typ → List Typ → List Typ
  | [], out => out
  | f :: fs, out => outputFields fs (if f.isAggregate then outputStructUnion f out else out)

end

/-- **`OutputStructUnionDeclarations`.** The table is gone through in its order; what
is used is written with its fields in front of it. -/
def State.outputStructUnionDeclarations (σ : State) : List Typ :=
  (σ.allTypes.filter fun t => t.isAggregate && σ.used.any fun sid => t.hasSid sid).foldl
    (fun out t => outputStructUnion t out) []

end TypeTable

end CLSmith
