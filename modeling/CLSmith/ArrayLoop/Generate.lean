import CLSmith.Random
import CLSmith.Common.CInt
import CLSmith.Common.Loop
/-!
# Loops over arrays

`make_random_array_control`, the part of `StatementFor::make_iteration` that
uses it, `CGContext::is_nonwritable` and `VariableSelector::itemize_array`:
a nest of loops is generated from what the generator has chosen to put where,
with the bounds of the induction variables in the context, and then run as
the C it is. An itemized array is its list of indices.

The array a loop is for comes from the context's directive; without one the
loop is another kind of loop, and generating it fails here.
-/

namespace CLSmith

namespace ArrayLoop

open Common

/-- **The integer variables and the memory they are in.** Variables overlap
only where `loose_match` says so, and an induction variable is no bit-field. -/
structure Vars (V M : Type) where
  name : V → String
  ty : V → IntTy
  isPacked : V → Bool
  looseMatch : V → V → Bool
  looseMatch_self : ∀ v, looseMatch v v = true
  get : M → V → ℤ
  set : M → V → ℤ → M
  get_set : ∀ m v x, (ty v).InRange x → get (set m v x) v = x
  get_set_of_not_match : ∀ m v w x, looseMatch v w = false → get (set m v x) w = get m w

/-- The length of a dimension. The options that bound it are `int`s. -/
structure Dim where
  len : ℕ
  pos : 0 < len
  lt : len < 2 ^ 31

/-- The options `itemize_array` reads. -/
structure IndexOptions where
  signedCharIndex : Bool
  ccomp : Bool

/-- `INVALID_BOUND`. -/
def invalidBound : ℕ := 2 ^ 32 - 1

/-! ## Controls -/

/-- The comparison of a loop's test, `eCmpLe` or `eCmpGe`: the first for a loop that
counts up, the other for one that counts down. -/
inductive TestOp
  | cmpLe | cmpGe
deriving DecidableEq

/-- How a loop changes its induction variable: `eAddAssign` or `eSubAssign`. -/
inductive IncrOp
  | addAssign | subAssign
deriving DecidableEq

/-- What controls a loop, with the bound recorded for its variable. -/
structure Control where
  testOp : TestOp
  init : ℕ
  limit : ℕ
  incrOp : IncrOp
  incr : ℕ
  bound : ℕ
deriving DecidableEq

/-- `pure_rnd_upto`. -/
def pureRndUpto (n : ℕ) : Gen ℕ := if n = 0 then pure 0 else rndUpto n fun _ => false

/-- `pure_rnd_flipcoin(50) ? a : b`. -/
def halfOr (a : ℕ) (b : Gen ℕ) : Gen ℕ := do
  if ← rndFlipcoin 50 then pure a else b

/-- The increment of either kind of loop. -/
def makeIncr (bound : ℕ) : Gen ℕ := do
  let incr ← halfOr 1 (pureRndUpto (bound / 4))
  pure (if incr = 0 then 1 else incr)

/-- **`make_random_array_control`**; the sizes are `int`s, so that `unsigned`
and `int` agree. -/
def makeRandomArrayControl (bound : ℕ) (isSigned : Bool) : Gen Control := do
  let falling ← (if isSigned then do
    let rising ← rndFlipcoin 50
    pure (!rising) else pure false)
  if falling then do
    let init ← halfOr bound do
      let less ← pureRndUpto (bound / 2)
      pure (bound - less)
    let limit ← halfOr 0 (pureRndUpto (bound / 2))
    let incr ← makeIncr bound
    pure ⟨.cmpGe, init, limit, .subAssign, incr, init⟩
  else do
    let init ← halfOr 0 (pureRndUpto (bound / 2))
    let incr ← makeIncr bound
    pure ⟨.cmpLe, init, bound, .addAssign, incr, (bound - init) / incr * incr + init⟩

/-! ## Contexts -/

variable {V M : Type}

/-- `iv_bounds`; it is a map over pointers, so its order is any. -/
abbrev Bounds (V : Type) := List (V × ℕ)

/-- `iv_bounds[iv] = bound`. -/
def Bounds.insert [DecidableEq V] (c : Bounds V) (iv : V) (bound : ℕ) : Bounds V :=
  (iv, bound) :: c.filter fun q => decide (q.1 ≠ iv)

variable (S : Vars V M)

/-- `is_nonwritable`; `noWrites` are those of the directive. -/
def isNonwritable (noWrites : List V) (c : Bounds V) (v : V) : Bool :=
  (noWrites.any fun w => S.looseMatch w v || S.looseMatch v w) ||
    c.any fun q => S.looseMatch v q.1

/-- `choose_ok_var` of variables that are no arrays. -/
def chooseOkVar {α : Type} : List α → Gen (Option α)
  | [] => pure none
  | [v] => pure (some v)
  | v :: w :: vs => do
    let index ← rndUpto (v :: w :: vs).length fun _ => false
    pure (v :: w :: vs)[index]?

/-- `SelectLoopCtrlVar`, of the variables that may be written but for
`is_nonwritable`; `GenerateNewGlobal` makes one the context does not know. -/
def selectLoopCtrlVar (noWrites : List V) (c : Bounds V) (vars : List V) (newVar : V) : Gen V := do
  match ← chooseOkVar (vars.filter fun v => !isNonwritable S noWrites c v) with
  | some v => pure v
  | none => Gen.ofOption (if isNonwritable S noWrites c newVar then none else some newVar)

/-! ## Itemizing -/

/-- An index of an element: `iv + offset`, in a dimension. -/
structure Index (V : Type) where
  iv : V
  offset : ℕ
  dim : Dim

/-- The place of an induction variable among those before it. -/
def insertIv (q : V × ℕ) : Bounds V → Bounds V
  | [] => [q]
  | r :: rs => if S.name q.1 < S.name r.1 then q :: r :: rs else r :: insertIv q rs

/-- `ok_ivs`, each with its bound. -/
def okIvs (o : IndexOptions) (c : Bounds V) (dimenLen : ℕ) : Bounds V :=
  (c.filter fun q => decide (q.2 ≠ invalidBound ∧ q.2 < dimenLen) &&
    !(!o.signedCharIndex && decide (S.ty q.1 = ⟨true, .w8⟩)) &&
    !(o.ccomp && S.isPacked q.1)).foldl (fun ivs q => insertIv S q ivs) []

/-- The loop of `itemize_array` over the dimensions. -/
def itemizeDims (o : IndexOptions) (c : Bounds V) : List Dim → Gen (Option (List (Index V)))
  | [] => pure (some [])
  | d :: ds => do
    match ← chooseOkVar (okIvs S o c d.len) with
    | none => pure none
    | some (v, bound) => do
      let offset ← (if 1 < d.len - bound then rndUpto (d.len - bound) fun _ => false else pure 0)
      let rest ← itemizeDims o c ds
      pure (rest.map (⟨v, offset, d⟩ :: ·))

/-- **`itemize_array`**: an element of an array of the sizes `ds`, or NULL. With fewer
induction variables around than dimensions no index could be drawn for each, so there
is none. -/
def itemizeArray (o : IndexOptions) (c : Bounds V) (ds : List Dim) :
    Gen (Option (List (Index V))) :=
  if c.length < ds.length then pure none else itemizeDims S o c ds

/-! ## Nests -/

/-- **A nest of loops** with loops `L` and elements `E`. What does not write
the variables around it is one statement, whatever it is. -/
inductive Nest (M L E : Type)
  | nil
  | other (run : M → M × Outcome) (rest : Nest M L E)
  | use (e : E) (rest : Nest M L E)
  | ifElse (test : M → Bool) (ifTrue ifFalse rest : Nest M L E)
  | loop (l : L) (body rest : Nest M L E)

/-- A loop to be made: the arrays it must use, by their sizes. -/
structure LoopPlan (V : Type) where
  vars : List V
  newVar : V
  arrays : List (List Dim)

/-- A loop made: its induction variable, and the control that was drawn for it. -/
structure Loop (V : Type) where
  iv : V
  control : Control

/-- The shortest dimension. -/
def shortest (ds : List Dim) : ℕ :=
  ds.foldl (fun b d => if d.len < b then d.len else b) invalidBound

/-- `make_iteration`, for an array of the directive. The array chosen is
itemized, with constants nothing uses. -/
def makeIteration (noWrites : List V) (c : Bounds V) (p : LoopPlan V) : Gen (Loop V) := do
  let iv ← selectLoopCtrlVar S noWrites c p.vars p.newVar
  let av ← chooseOkVar p.arrays
  let ds ← Gen.ofOption av
  let _ ← ds.mapM fun d => rndUpto d.len fun _ => false
  let bound ← Gen.ofOption (if shortest ds = invalidBound then none else some (shortest ds - 1))
  let control ← makeRandomArrayControl bound (S.ty iv).signed
  pure ⟨iv, control⟩

/-- **A nest generated**, the loops and elements from the context they are in. The
context holds the induction variables of the loops around with their bounds; what
draws nothing is left as it is. -/
def generate [DecidableEq V] (o : IndexOptions) (noWrites : List V) :
    Nest M (LoopPlan V) (List Dim) → Bounds V → Gen (Nest M (Loop V) (List (Index V)))
  | .nil, _ => pure .nil
  | .other run rest, c => do
    let rest ← generate o noWrites rest c
    pure (.other run rest)
  | .use ds rest, c => do
    let e ← itemizeArray S o c ds
    let rest ← generate o noWrites rest c
    match e with
    | some e => pure (.use e rest)
    | none => pure rest
  | .ifElse test t e rest, c => do
    let t ← generate o noWrites t c
    let e ← generate o noWrites e c
    let rest ← generate o noWrites rest c
    pure (.ifElse test t e rest)
  | .loop p body rest, c => do
    let l ← makeIteration S noWrites c p
    let body ← generate o noWrites body (c.insert l.iv l.control.bound)
    let rest ← generate o noWrites rest c
    pure (.loop l body rest)

/-! ## Running a nest -/

/-- The variable as an operand. -/
def operand (m : M) (v : V) : Expr := .lit (S.ty v) (S.get m v)

/-- The index as C computes it; an offset of zero is not added. -/
def Index.expr (i : Index V) (m : M) : Expr :=
  if i.offset = 0 then operand S m i.iv else operand S m i.iv + .lit .int i.offset

/-- `iv <= limit` or `iv >= limit`. -/
def Loop.test (l : Loop V) (m : M) : Expr :=
  match l.control.testOp with
  | .cmpLe => .le (operand S m l.iv) (.lit .int l.control.limit)
  | .cmpGe => .ge (operand S m l.iv) (.lit .int l.control.limit)

/-- `iv += incr` or `iv -= incr`. -/
def Loop.next (l : Loop V) (m : M) : Expr :=
  .cast (S.ty l.iv) (match l.control.incrOp with
    | .addAssign => operand S m l.iv + .lit .int l.control.incr
    | .subAssign => operand S m l.iv - .lit .int l.control.incr)

/-- A point of a run: the loops around it, and the element used there. -/
structure Event (V M : Type) where
  loops : Bounds V
  mem : M
  element : List (Index V) := []

/-- A state of a run: the memory, and the points passed with what was in it there. -/
structure State (V M : Type) where
  mem : M
  trace : List (Event V M) := []

def State.record (s : State V M) (e : Event V M) : State V M := { s with trace := s.trace ++ [e] }

def State.assign (s : State V M) (v : V) (x : ℤ) : State V M := { s with mem := S.set s.mem v x }

/-- **The run of a nest**, with fuel for the rounds of a loop; what C leaves
undefined is a failure. A point is recorded where the body of a loop starts,
after every other statement, and where an element is used. -/
def exec [DecidableEq V] (n : ℕ) :
    Nest M (Loop V) (List (Index V)) → Bounds V → State V M → Option (State V M × Outcome)
  | .nil, _, s => some (s, .normal)
  | .other run rest, c, s =>
    let (m, o) := run s.mem
    let s := State.record { s with mem := m } ⟨c, m, []⟩
    if o = .normal then exec n rest c s else some (s, o)
  | .use e rest, c, s => exec n rest c (s.record ⟨c, s.mem, e⟩)
  | .ifElse test t e rest, c, s =>
    (if test s.mem then exec n t c s else exec n e c s).bind fun (s, o) =>
      if o = .normal then exec n rest c s else some (s, o)
  | .loop l body rest, c, s => do
    let c' := c.insert l.iv l.control.bound
    let (s, o) ← Common.Loop.run
      (fun s => (l.test S s.mem).eval.toOption.map fun v => decide (v ≠ 0))
      (fun s => (l.next S s.mem).eval.toOption.map (s.assign S l.iv))
      (fun s => exec n body c' (s.record ⟨c', s.mem, []⟩))
      n (s.assign S l.iv ((S.ty l.iv).wrap l.control.init))
    if o = .normal then exec n rest c s else some (s, o)

end ArrayLoop

end CLSmith
