import CLSmith.Facts.Match
/-!
# Effects

`Effect`: the variables an expression or statement reads and writes, with the
questions `CGContext` asks of them. A variable stands for its collective one.
An aggregate that is written counts as written in all its fields; one that is
read counts so only as far as it is made of structs.
-/

namespace CLSmith

namespace Effects

open Facts

variable {N : Type} [DecidableEq N]

/-- The type is `eStruct`. -/
def isStruct : Ty → Bool
  | .struct _ _ => true
  | _ => false

/-- What is asked of the qualifiers of a variable: whether it is `const`, and whether
it is `volatile`. -/
structure Qualifiers (N : Type) where
  isConst : Variable N → Bool
  isVolatile : Variable N → Bool

/-- **An effect**: what is read and written, as sets kept in the order of insertion,
and the two flags. -/
structure Effect (N : Type) where
  readVars : List (Variable N) := []
  writeVars : List (Variable N) := []
  lhsWriteVars : List (Variable N) := []
  pure : Bool := true
  sideEffectFree : Bool := true

section

variable (D : N → Decl) (up : Ty → Bool) (vars : List (Variable N))

/-! ## Searches in the fields

The set that is searched, and the types through which the search goes from a
field up to what it is a field of, are parameters. -/

/-- The loop of `is_read` and of `is_written`. -/
def coveredAt (n : N) : List ℕ → Bool
  | [] => decide (.named n [] ∈ vars)
  | i :: path =>
    decide (.named n (i :: path) ∈ vars) || (up (typeAt D n path) && coveredAt n path)

/-- A variable is in the set, or what it is a field of is. -/
def covered : Variable N → Bool
  | .named n path => coveredAt D up vars n path
  | v => decide (v ∈ vars)

mutual

/-- The loop over the fields, from the index `i` on. -/
def anyField (p : List ℕ → Bool) (path : List ℕ) : Fields → ℕ → Bool
  | .nil, _ => false
  | .cons t len rest, i =>
    (len != some 0 && (p (i :: path) || anyFieldOf p (i :: path) t)) ||
      anyField p path rest (i + 1)

def anyFieldOf (p : List ℕ → Bool) (path : List ℕ) : Ty → Bool
  | .struct _ fields => anyField p path fields 0
  | .union fields => anyField p path fields 0
  | _ => false

end

/-- A field, at any depth, is covered. -/
def fieldCovered : Variable N → Bool
  | .named n path => anyFieldOf (coveredAt D up vars n) path (typeAt D n path)
  | _ => false

/-- A variable of the set is in the same union. -/
def siblingCovered (v : Variable N) : Bool :=
  match v.containerUnion D with
  | some you => vars.any fun me => decide (me.containerUnion D = some you)
  | none => false

/-- The loop of `add_effect` over one of the sets. -/
def addVars : List (Variable N) → List (Variable N) → List (Variable N)
  | vars, [] => vars
  | vars, v :: new =>
    if covered D up vars v then addVars vars new else addVars (vars ++ [v]) new

end

namespace Effect

variable (D : N → Decl) (x : Effect N)

/-- **`is_read`.** A variable is, if it is among those read or a field of a struct
that is. -/
def isRead : Variable N → Bool := covered D isStruct x.readVars

/-- **`is_written`.** A variable is, if it is among those written or a field of one
that is. -/
def isWritten : Variable N → Bool := covered D (fun _ => true) x.writeVars

/-- `field_is_read`. -/
def fieldIsRead : Variable N → Bool := fieldCovered D isStruct x.readVars

/-- `field_is_written`. -/
def fieldIsWritten : Variable N → Bool := fieldCovered D (fun _ => true) x.writeVars

/-- `sibling_union_field_is_read`. -/
def siblingUnionFieldIsRead : Variable N → Bool := siblingCovered D x.readVars

/-- `sibling_union_field_is_written`. -/
def siblingUnionFieldIsWritten : Variable N → Bool := siblingCovered D x.writeVars

/-- **`is_read_partially`.** It is read itself, or a field of it, or another field of
the union it is in. -/
def isReadPartially (v : Variable N) : Bool :=
  x.isRead D v || x.fieldIsRead D v || x.siblingUnionFieldIsRead D v

/-- **`is_written_partially`.** It is written itself, or a field of it, or another
field of the union it is in. -/
def isWrittenPartially (v : Variable N) : Bool :=
  x.isWritten D v || x.fieldIsWritten D v || x.siblingUnionFieldIsWritten D v

/-- **`add_effect`**; an effect added to itself changes nothing. What is covered
already is not listed again. -/
def addEffect (e : Effect N) (includeLhsEffects : Bool) : Effect N where
  readVars := addVars D isStruct x.readVars e.readVars
  writeVars := addVars D (fun _ => true) x.writeVars e.writeVars
  lhsWriteVars :=
    if includeLhsEffects then addVariables x.lhsWriteVars e.lhsWriteVars else x.lhsWriteVars
  pure := x.pure && e.pure
  sideEffectFree := x.sideEffectFree && e.sideEffectFree

end Effect

/-! ## The context -/

/-- What a `RWDirective` forbids: the variables that may not be read, and those that
may not be written. -/
structure RWDirective (N : Type) where
  noReadVars : List (Variable N)
  noWriteVars : List (Variable N)

/-- **A context**, as far as conflicts go: what may not be read or written, the
induction variables, and the effect of what is evaluated beside. -/
structure CGContext (N : Type) where
  rwDirective : Option (RWDirective N) := none
  ivBounds : List (Variable N) := []
  effectContext : Effect N := {}

namespace CGContext

variable (D : N → Decl) (Q : Qualifiers N) (c : CGContext N)

/-- `is_nonreadable`. -/
def isNonreadable (v : Variable N) : Bool :=
  match c.rwDirective with
  | some rw => rw.noReadVars.any fun x => x.matches D v
  | none => false

/-- `is_nonwritable`. -/
def isNonwritable (v : Variable N) : Bool :=
  (match c.rwDirective with
    | some rw => rw.noWriteVars.any fun x => x.looseMatch D v || v.looseMatch D x
    | none => false) || c.ivBounds.any fun iv => v.looseMatch D iv

/-- What a variable that is read is in conflict with. -/
def readConflict (v : Variable N) : Bool :=
  c.isNonreadable D v || c.effectContext.isWrittenPartially D v ||
    (Q.isVolatile v && !c.effectContext.sideEffectFree)

/-- What a variable that is written is in conflict with. -/
def writeConflict (v : Variable N) : Bool :=
  c.isNonwritable D v || Q.isConst v || c.effectContext.isWrittenPartially D v ||
    c.effectContext.isReadPartially D v || (Q.isVolatile v && !c.effectContext.sideEffectFree)

/-- **`in_conflict`.** Something the effect reads or writes may not be, where the
context is. -/
def inConflict (eff : Effect N) : Bool :=
  (eff.readVars.any fun v => c.readConflict D Q v) ||
    eff.writeVars.any fun v => c.writeConflict D Q v

end CGContext

/-! ## Pointers -/

/-- The options that dereferences depend on: which pointers may be dereferenced at
all, and how volatile ones are counted. -/
structure DereferenceOptions where
  allowNullPtr : Bool := false
  allowDeadPtr : Bool := false
  strictVolatileRule : Bool := false

namespace AccessContext

variable (o : DereferenceOptions) (facts : FactVec (Variable N))

/-- `is_dangling_ptr`. -/
def isDanglingPtr (p : Variable N) : Bool :=
  match findRelatedFact facts (.pointTo p []) with
  | some (.pointTo _ pointToVars) => decide (.garbage ∈ pointToVars) && !o.allowDeadPtr
  | _ => false

/-- `is_valid_ptr`. -/
def isValidPtr (p : Variable N) : Bool :=
  match findRelatedFact facts (.pointTo p []) with
  | some (.pointTo _ pointToVars) =>
    (o.allowNullPtr || decide (.null ∉ pointToVars)) &&
      (o.allowDeadPtr || decide (.garbage ∉ pointToVars))
  | _ => false

/-- There are null or dead pointers, or none at all. -/
def badPointees (tmp : List (Variable N)) : Bool :=
  tmp.isEmpty || (!o.allowNullPtr && decide (.null ∈ tmp)) ||
    (!o.allowDeadPtr && decide (.garbage ∈ tmp))

end AccessContext

end Effects

end CLSmith
