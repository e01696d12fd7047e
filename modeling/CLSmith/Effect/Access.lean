import CLSmith.Effect
/-!
# Accesses

What `CGContext` does for an access to a variable: it reads the index
expressions on the way to it, follows pointers level by level, and records what
is read and written in the effect of the context and in that of the statement.
Pointees are collective variables, so that they have no index expressions.
-/

namespace CLSmith

namespace Effects

open Facts

variable {N : Type} [DecidableEq N]

/-- What else is asked of variables. -/
structure AccessQualifiers (N : Type) extends Qualifiers N where
  isAccessOnce : Variable N → Bool
  isVolatileAfterDeref : Variable N → ℕ → Bool
  isBitfield : Variable N → Bool

/-- An expression, as far as index expressions go: a constant, a variable with
the index expressions on the way to it at a level of indirection, or a built-in
operation, which evaluates its operands in order or in any. -/
inductive Expression (N : Type)
  | constant
  | variable (v : Variable N) (indices : List (Expression N)) (indirect : ℤ)
  | invocation (ordered : Bool) (params : List (Expression N))

/-- A context in which variables are accessed; `noDanglingPtr` is one of its
`flags`. -/
structure AccessContext (N : Type) extends CGContext N where
  noDanglingPtr : Bool := false

/-- The effects a context keeps: the one it accumulates, if it was given one, and that
of the statement. -/
structure EffectState (N : Type) where
  effectAccum : Option (Effect N)
  effectStm : Effect N := {}

section

variable (D : N → Decl) (Q : AccessQualifiers N)

namespace Effect

/-- `read_var`. -/
def readVar (x : Effect N) (v : Variable N) : Effect N :=
  { x with
    readVars := if x.isRead D v then x.readVars else x.readVars ++ [v]
    pure := x.pure && (Q.isConst v && !Q.isVolatile v && !Q.isAccessOnce v)
    sideEffectFree := x.sideEffectFree && (!Q.isVolatile v && !Q.isAccessOnce v) }

/-- `write_var`. -/
def writeVar (x : Effect N) (v : Variable N) : Effect N :=
  { x with
    writeVars := if x.isWritten D v then x.writeVars else x.writeVars ++ [v]
    sideEffectFree := x.sideEffectFree && (!Q.isVolatile v && !Q.isAccessOnce v) }

/-- `operator=`, from a copy of an effect. -/
def assign (x copy : Effect N) : Effect N := { copy with lhsWriteVars := x.lhsWriteVars }

end Effect

namespace EffectState

/-- Both effects change. -/
def both (s : EffectState N) (g : Effect N → Effect N) : EffectState N :=
  ⟨s.effectAccum.map g, g s.effectStm⟩

/-- `CGContext::read_var`. -/
def readVar (s : EffectState N) (v : Variable N) : EffectState N := s.both fun x => x.readVar D Q v

/-- `CGContext::write_var`. -/
def writeVar (s : EffectState N) (v : Variable N) : EffectState N :=
  s.both fun x => x.writeVar D Q v

/-- `merge_param_context`, for built-in operations. -/
def mergeParamContext (s param : EffectState N) : EffectState N :=
  match param.effectAccum with
  | some e =>
    ⟨s.effectAccum.map fun x => x.addEffect D e true, s.effectStm.addEffect D e false⟩
  | none => s

/-- `*effect_accum = effect_accum_copy`. -/
def restore (s copy : EffectState N) : EffectState N :=
  { s with
    effectAccum :=
      match s.effectAccum, copy.effectAccum with
      | some x, some y => some (x.assign y)
      | x, _ => x }

end EffectState

variable (o : DereferenceOptions) (facts : FactVec (Variable N))

namespace AccessContext

variable (c : AccessContext N)

/-- The checks of `check_read_var`. -/
def readable (v : Variable N) : Bool :=
  !FactUnion.isNonreadableField D facts v && !c.isNonreadable D v &&
    !c.effectContext.isWrittenPartially D v &&
    !(Q.isVolatile v && !c.effectContext.sideEffectFree) &&
    !((v.type D).isPointer && isDanglingPtr o facts v)

/-- The checks of `check_write_var`. -/
def writable (v : Variable N) : Bool :=
  !(c.isNonwritable D v || Q.isConst v) && !c.effectContext.isWrittenPartially D v &&
    !c.effectContext.isReadPartially D v &&
    !(Q.isVolatile v && !c.effectContext.sideEffectFree) &&
    !(c.noDanglingPtr && (v.type D).isPointer && isDanglingPtr o facts v)

/-- `check_read_var`, once the index expressions are read. -/
def checkRead (v : Variable N) (s : EffectState N) : Bool × EffectState N :=
  if c.readable D Q o facts v then (true, s.readVar D Q v) else (false, s)

/-- `check_write_var`, once the index expressions are read. -/
def checkWrite (v : Variable N) (s : EffectState N) : Bool × EffectState N :=
  if c.writable D Q o facts v then (true, s.writeVar D Q v) else (false, s)

/-- The loop over the pointees of a level. -/
def checkPointees (check : Variable N → EffectState N → Bool × EffectState N) :
    List (Variable N) → EffectState N → Bool × EffectState N
  | [], s => (true, s)
  | pointee :: rest, s =>
    if pointee.isSpecialPtr then checkPointees check rest s
    else
      match check pointee s with
      | (true, s) => checkPointees check rest s
      | (false, s) => (false, s)

/-- The loop over the levels of a dereference, with what is checked of a pointee
when so many levels are left. -/
def followPointers (check : ℕ → Variable N → EffectState N → Bool × EffectState N) :
    ℕ → List (Variable N) → EffectState N → Bool × EffectState N
  | 0, _, s => (true, s)
  | indirect + 1, tmp, s =>
    let tmp := mergePointeesOfPointers facts [] tmp
    if badPointees o tmp then (false, s)
    else
      match checkPointees (check indirect) tmp s with
      | (true, s) => followPointers check indirect tmp s
      | (false, s) => (false, s)

/-- `read_pointed` and `write_pointed` from what `read_indices` gives: where a
level fails, `effect_accum` is restored. -/
def pointed (check : ℕ → Variable N → EffectState N → Bool × EffectState N) (v : Variable N)
    (indirect : ℕ) (copy : EffectState N) : Bool × EffectState N → Bool × EffectState N
  | (false, s) => (false, s)
  | (true, s) =>
    match followPointers o facts check indirect [v] s with
    | (true, s) => (true, s)
    | (false, s) => (false, s.restore copy)

/-- What `read_pointed` checks of a pointee. -/
def readCheck (_ : ℕ) : Variable N → EffectState N → Bool × EffectState N :=
  c.checkRead D Q o facts

/-- What `write_pointed` checks of a pointee: the ultimate one is written. -/
def writeCheck (indirect : ℕ) : Variable N → EffectState N → Bool × EffectState N :=
  if indirect = 0 then c.checkWrite D Q o facts else c.checkRead D Q o facts

/-- `check_deref_volatile`. -/
def checkDerefVolatile (v : Variable N) (derefLevel : ℕ) (s : EffectState N) :
    Bool × EffectState N :=
  let vol := (List.range derefLevel).any fun i => Q.isVolatileAfterDeref v (i + 1)
  if !o.strictVolatileRule then (true, s)
  else if !c.effectContext.sideEffectFree && vol then (false, s)
  else if vol then (true, s.both fun x => { x with sideEffectFree := false })
  else (true, s)

mutual

/-- **`read_indices`**, over the index expressions on the way to a variable. It stops
at the first that is rejected, and keeps what the ones before have recorded. -/
def readIndices (c : AccessContext N) : List (Expression N) → EffectState N → Bool × EffectState N
  | [], s => (true, s)
  | e :: indices, s =>
    match visitFacts c e s with
    | (true, s) => readIndices c indices s
    | (false, s) => (false, s)

/-- `visit_facts` of an expression, which keeps the facts. -/
def visitFacts (c : AccessContext N) : Expression N → EffectState N → Bool × EffectState N
  | .constant, s => (true, s)
  | .variable v indices indirect, s =>
    if indirect < 0 then (!Q.isBitfield v, s)
    else
      let checked (s : EffectState N) : Bool × EffectState N :=
        match readIndices c indices s with
        | (true, s) => c.checkRead D Q o facts v s
        | (false, s) => (false, s)
      if indirect = 0 then checked s
      -- facts are about collective variables, and there is none of an itemized one
      else if indices.isEmpty && isValidPtr o facts v then
        match checked s with
        | (true, s) =>
          match pointed o facts (c.readCheck D Q o facts) v indirect.toNat s
              (readIndices c indices s) with
          | (true, s) => c.checkDerefVolatile Q o v indirect.toNat s
          | (false, s) => (false, s)
        | (false, s) => (false, s)
      else (false, s)
  | .invocation true params, s => readIndices c params s
  | .invocation false params, s => visitParams c c.effectContext params s

/-- The loop over the operands of an operation, each with effects of its own and
with those before it as its context. -/
def visitParams (c : AccessContext N) (running : Effect N) :
    List (Expression N) → EffectState N → Bool × EffectState N
  | [], s => (true, s)
  | e :: params, s =>
    match visitFacts { c with effectContext := running } e ⟨some {}, {}⟩ with
    | (true, param) =>
      visitParams c (running.addEffect D (param.effectAccum.getD {}) false) params
        (s.mergeParamContext D param)
    | (false, _) => (false, s)

end

/-- **`check_read_var`**: the index expressions, then the variable, which is recorded
as read if nothing forbids it. -/
def checkReadVar (v : Variable N) (indices : List (Expression N)) (s : EffectState N) :
    Bool × EffectState N :=
  match c.readIndices D Q o facts indices s with
  | (true, s) => c.checkRead D Q o facts v s
  | (false, s) => (false, s)

/-- **`check_write_var`**: the index expressions, then the variable, which is recorded
as written if nothing forbids it. -/
def checkWriteVar (v : Variable N) (indices : List (Expression N)) (s : EffectState N) :
    Bool × EffectState N :=
  match c.readIndices D Q o facts indices s with
  | (true, s) => c.checkWrite D Q o facts v s
  | (false, s) => (false, s)

/-- **`read_pointed`**: the index expressions, then level by level the pointees, each
checked as a variable that is read. -/
def readPointed (v : Variable N) (indices : List (Expression N)) (indirect : ℕ)
    (s : EffectState N) : Bool × EffectState N :=
  pointed o facts (c.readCheck D Q o facts) v indirect s (c.readIndices D Q o facts indices s)

/-- **`write_pointed`**: the same way down, with the pointees of the last level
checked as variables that are written. -/
def writePointed (v : Variable N) (indices : List (Expression N)) (indirect : ℕ)
    (s : EffectState N) : Bool × EffectState N :=
  pointed o facts (c.writeCheck D Q o facts) v indirect s (c.readIndices D Q o facts indices s)

end AccessContext

end

end Effects

end CLSmith
