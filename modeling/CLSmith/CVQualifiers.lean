import Mathlib.Data.Int.Notation
import Mathlib.Data.List.Basic
/-!
# Qualifiers

`CVQualifiers`: whether a variable is `const` or `volatile`, level by level.
The first entries are those of what is at the end of the pointers, the last
ones those of the variable itself.

The generator asks for a variable with some qualifiers and takes one that
matches, as it is, dereferenced or with its address taken, or makes a new
one with qualifiers it derives from those asked for.
-/

namespace CLSmith

/-- The options the qualifiers depend on, with their defaults: how exactly they are
compared, and what pointers may be. -/
structure QualifierOptions where
  matchExactQualifiers : Bool := false
  volatilePointers : Bool := true
  constPointers : Bool := true
  allowConstVolatile : Bool := true

/-- **`CVQualifiers`**: for each level of a type whether it is `const` and whether it
is `volatile`, the level of the variable itself last, and two flags of what they are
asked for. -/
structure CVQualifiers where
  wildcard : Bool := false
  acceptStricter : Bool := false
  isConsts : List Bool := []
  isVolatiles : List Bool := []
deriving DecidableEq

/-- `Effect::Access`. -/
inductive CVQualifiers.Access
  | read | write
deriving DecidableEq

namespace CVQualifiers

variable (o : QualifierOptions) (q : CVQualifiers)

/-! ## Levels -/

/-- `v[len - deref_level - 1]`, asserted to be there. -/
def levelAt (v : List Bool) (derefLevel : ℤ) : Option Bool :=
  if derefLevel < 0 then some false
  else if v.length ≤ derefLevel.toNat then none
  else v[v.length - derefLevel.toNat - 1]?

/-- `is_const_after_deref`. -/
def isConstAfterDeref (derefLevel : ℤ) : Option Bool := levelAt q.isConsts derefLevel

/-- `is_volatile_after_deref`. -/
def isVolatileAfterDeref (derefLevel : ℤ) : Option Bool := levelAt q.isVolatiles derefLevel

/-- `set_const(is_const)`, of the variable itself. -/
def setConst (isConst : Bool) : CVQualifiers :=
  { q with isConsts := q.isConsts.set (q.isConsts.length - 1) isConst }

/-- `set_volatile(is_volatile)`, of the variable itself. -/
def setVolatile (isVolatile : Bool) : CVQualifiers :=
  { q with isVolatiles := q.isVolatiles.set (q.isVolatiles.length - 1) isVolatile }

/-- `restrict`, in a context whose effect is free of side effects or not. -/
def restrict (access : Access) (sideEffectFree : Bool) : CVQualifiers :=
  let q := if access = .write then q.setConst false else q
  if sideEffectFree then q else q.setVolatile false

/-- `add_qualifiers`. -/
def addQualifiers (isConst isVolatile : Bool) : CVQualifiers :=
  { q with isConsts := q.isConsts ++ [isConst], isVolatiles := q.isVolatiles ++ [isVolatile] }

/-- `remove_qualifiers`. -/
def removeQualifiers (len : ℕ) : CVQualifiers :=
  { q with
    isConsts := q.isConsts.take (q.isConsts.length - len)
    isVolatiles := q.isVolatiles.take (q.isVolatiles.length - len) }

/-- **`indirect_qualifiers`**: of what is dereferenced so often, or of the address. -/
def indirectQualifiers (level : ℤ) : Option CVQualifiers :=
  if level = 0 ∨ q.wildcard = true then some q
  else if level < 0 then if level = -1 then some (q.addQualifiers false false) else none
  else some (q.removeQualifiers level.toNat)

/-! ## Matching -/

/-- The loop of `stricter_than` over the consts, and the one over the volatiles: a
level that two more follow must be the same, any other at least as strict. -/
def strictLevels : List Bool → List Bool → Bool
  | x :: xs, y :: ys =>
    !(decide (2 < xs.length + 1) && x != y) && !(y && !x) && strictLevels xs ys
  | _, _ => true

/-- **`stricter_than`.** The number of levels is the same, `q` is `const` and
`volatile` wherever `r` is, and with more than one level the first is `volatile` in
both or in neither. -/
def stricterThan (r : CVQualifiers) : Bool :=
  decide (q.isConsts.length = r.isConsts.length) &&
  decide (q.isVolatiles.length = r.isVolatiles.length) &&
  strictLevels q.isConsts r.isConsts &&
  !(decide (1 < q.isConsts.length) && q.isVolatiles.head? != r.isVolatiles.head?) &&
  strictLevels q.isVolatiles r.isVolatiles

/-- **`match`.** In exact mode the vectors are equal; else a single level is always a
match, and with more of them one side has to be stricter, which one `accept_stricter`
tells. -/
def isMatch (r : CVQualifiers) : Bool :=
  if q.wildcard then true
  else if o.matchExactQualifiers then
    decide (q.isConsts = r.isConsts) && decide (q.isVolatiles = r.isVolatiles)
  else if q.isConsts.length = r.isConsts.length ∧ q.isConsts.length = 1 then true
  else (!q.acceptStricter && q.stricterThan r) || (q.acceptStricter && r.stricterThan q)

/-- **`match_indirect`.** With a different number of levels the given ones are
dereferenced, or their address is taken once, before they are compared. -/
def matchIndirect (r : CVQualifiers) : Bool :=
  if q.wildcard then true
  else if q.isConsts.length = r.isConsts.length then q.isMatch o r
  else
    let deref : ℤ := r.isConsts.length - q.isConsts.length
    if deref < -1 then false
    else match r.indirectQualifiers deref with
      | some r => q.isMatch o r
      | none => false

/-! ## Qualifiers made from others -/

/-- `make_scalar_volatiles`, and `make_scalar_consts`: only the first level may be
set, unless pointers may. -/
def makeScalar (pointers : Bool) (v : List Bool) : List Bool :=
  if pointers then v
  else match v with
    | [] => []
    | x :: xs => x :: xs.map fun _ => false

/-- A loop over the levels: with the position, how many levels there are from it on,
what is there, and what is there in the other vector. -/
def mapLevels (f : ℕ → ℕ → Bool → Bool → Bool) : ℕ → List Bool → List Bool → List Bool
  | _, [], _ => []
  | i, x :: xs, ys => f i (xs.length + 1) x (ys.headD false) :: mapLevels f (i + 1) xs ys.tail

variable (coin : ℕ → Bool)

/-- `random_stricter_consts`; `coin i` is what `rnd_flipcoin` says at level `i`. -/
def randomStricterConsts : List Bool :=
  if o.matchExactQualifiers then q.isConsts
  else mapLevels (fun i depth c v =>
    if c || decide (2 < depth) then c
    else if v && !o.allowConstVolatile then false
    else coin i) 0 q.isConsts q.isVolatiles

/-- `random_stricter_volatiles`. -/
def randomStricterVolatiles : List Bool :=
  if o.matchExactQualifiers then q.isVolatiles
  else makeScalar o.volatilePointers <| mapLevels (fun i depth v c =>
    if v || (decide (i = 0) && decide (1 < q.isVolatiles.length)) || decide (2 < depth) then v
    else if c && !o.allowConstVolatile then false
    else coin i) 0 q.isVolatiles q.isConsts

/-- `random_looser_consts`. -/
def randomLooserConsts : List Bool :=
  if o.matchExactQualifiers then q.isConsts
  else mapLevels (fun i depth c _ => if !c || decide (2 < depth) then c else coin i)
    0 q.isConsts q.isVolatiles

/-- `random_looser_volatiles`. -/
def randomLooserVolatiles : List Bool :=
  if o.matchExactQualifiers then q.isVolatiles
  else makeScalar o.volatilePointers <| mapLevels (fun i depth v _ =>
    if !v || (decide (i = 0) && decide (1 < q.isVolatiles.length)) || decide (2 < depth) then v
    else coin i) 0 q.isVolatiles q.isConsts

/-- **`random_qualifiers`**, and with `loose` set `random_loose_qualifiers`, in a
context whose effect is free of side effects or not. -/
def randomQualifiers (loose noVolatile : Bool) (access : Access) (sideEffectFree : Bool)
    (volatileCoin constCoin : ℕ → Bool) : CVQualifiers :=
  if q.wildcard then ⟨true, q.acceptStricter, [], []⟩
  else
    let looser := loose || !q.acceptStricter
    let volatiles :=
      if noVolatile then q.isVolatiles.map fun _ => false
      else
        let v := if looser then q.randomLooserVolatiles o volatileCoin
          else q.randomStricterVolatiles o volatileCoin
        if sideEffectFree then v else v.set (v.length - 1) false
    let volatiles := makeScalar o.volatilePointers volatiles
    let consts := makeScalar o.constPointers
      (if looser then q.randomLooserConsts o constCoin else q.randomStricterConsts o constCoin)
    let consts := if access = .write then consts.set (consts.length - 1) false else consts
    ⟨false, false, consts, volatiles⟩

end CVQualifiers

end CLSmith
