import CLSmith.SafeMath.Macros
/-!
# The safe math functions

`safe_math.m4`: the function form of the safe operators, with `UNDEFINED`
the identity and `UNSAFE` not defined. The body of a function is converted
to its result type. A guard under `#if` is there from `int` on.
-/

namespace CLSmith

namespace SafeMath

open Common Expr

namespace Func

variable (w : Width)

/-- `maxshift`, which every function names without its argument: the
comparison of nothing with `int64_t` fails, and the expansion is 32. -/
def maxshift : Expr := lit .int 32

/-- `#if ($3>=INT_MAX)`. -/
def Guarded : Prop := IntTy.int.maxVal ≤ (intT w).maxVal

instance : Decidable (Guarded w) :=
  inferInstanceAs (Decidable (IntTy.int.maxVal ≤ (intT w).maxVal))

/-! ## `safe_signed_math` -/

def unaryMinusFuncS (si : ℤ) : Expr :=
  let t := intT w
  let si := lit t si
  cast t (if Guarded w then cond (eq si (intMin w)) si (-si) else -si)

def addFuncSS (si1 si2 : ℤ) : Expr :=
  let t := intT w
  let si1 := lit t si1
  let si2 := lit t si2
  cast t (if Guarded w then
    cond
      (lor
        (land (land (gt si1 (lit .int 0)) (gt si2 (lit .int 0))) (gt si1 (intMax w - si2)))
        (land (land (lt si1 (lit .int 0)) (lt si2 (lit .int 0))) (lt si1 (intMin w - si2))))
      si1
      (si1 + si2)
    else si1 + si2)

def subFuncSS (si1 si2 : ℤ) : Expr :=
  let t := intT w
  let si1 := lit t si1
  let si2 := lit t si2
  cast t (if Guarded w then
    cond
      (lt ((si1 ^^^ si2) &&& (((si1 ^^^ ((si1 ^^^ si2) &&& compl (intMax w))) - si2) ^^^ si2))
        (lit .int 0))
      si1
      (si1 - si2)
    else si1 - si2)

def mulFuncSS (si1 si2 : ℤ) : Expr :=
  let t := intT w
  let si1 := lit t si1
  let si2 := lit t si2
  cast t (if Guarded w then
    cond
      (lor (lor (lor
        (land (land (gt si1 (lit .int 0)) (gt si2 (lit .int 0))) (gt si1 (intMax w / si2)))
        (land (land (gt si1 (lit .int 0)) (le si2 (lit .int 0))) (lt si2 (intMin w / si1))))
        (land (land (le si1 (lit .int 0)) (gt si2 (lit .int 0))) (lt si1 (intMin w / si2))))
        (land (land (land (le si1 (lit .int 0)) (le si2 (lit .int 0))) (ne si1 (lit .int 0)))
          (lt si2 (intMax w / si1))))
      si1
      (si1 * si2)
    else si1 * si2)

def modFuncSS (si1 si2 : ℤ) : Expr :=
  let t := intT w
  let si1 := lit t si1
  let si2 := lit t si2
  cast t (cond
    (lor (eq si2 (lit .int 0)) (land (eq si1 (intMin w)) (eq si2 (-lit .int 1))))
    si1
    (si1 % si2))

def divFuncSS (si1 si2 : ℤ) : Expr :=
  let t := intT w
  let si1 := lit t si1
  let si2 := lit t si2
  cast t (cond
    (lor (eq si2 (lit .int 0)) (land (eq si1 (intMin w)) (eq si2 (-lit .int 1))))
    si1
    (si1 / si2))

def lshiftFuncSS (left right : ℤ) : Expr :=
  let t := intT w
  let left := lit t left
  let right := lit .int right
  cast t (cond
    (lor (lor (lor (lt left (lit .int 0)) (lt (cast .int right) (lit .int 0)))
      (ge (cast .int right) maxshift)) (gt left (intMax w >>> cast .int right)))
    left
    (left <<< cast .int right))

def lshiftFuncSU (left right : ℤ) : Expr :=
  let t := intT w
  let left := lit t left
  let right := lit .unsigned right
  cast t (cond
    (lor (lor (lt left (lit .int 0)) (ge (cast .unsigned right) maxshift))
      (gt left (intMax w >>> cast .unsigned right)))
    left
    (left <<< cast .unsigned right))

def rshiftFuncSS (left right : ℤ) : Expr :=
  let t := intT w
  let left := lit t left
  let right := lit .int right
  cast t (cond
    (lor (lor (lt left (lit .int 0)) (lt (cast .int right) (lit .int 0)))
      (ge (cast .int right) maxshift))
    left
    (left >>> cast .int right))

def rshiftFuncSU (left right : ℤ) : Expr :=
  let t := intT w
  let left := lit t left
  let right := lit .unsigned right
  cast t (cond
    (lor (lt left (lit .int 0)) (ge (cast .unsigned right) maxshift))
    left
    (left >>> cast .unsigned right))

/-! ## `safe_unsigned_math` -/

/-- `promote2`: `unsigned long long` for `uint64_t`, else `unsigned int`. -/
def promote2 : IntTy := if w = .w64 then ⟨false, .w64⟩ else .unsigned

def unaryMinusFuncU (ui : ℤ) : Expr :=
  let t := uintT w
  let ui := lit t ui
  cast t (-ui)

def addFuncUU (ui1 ui2 : ℤ) : Expr :=
  let t := uintT w
  let ui1 := lit t ui1
  let ui2 := lit t ui2
  cast t (ui1 + ui2)

def subFuncUU (ui1 ui2 : ℤ) : Expr :=
  let t := uintT w
  let ui1 := lit t ui1
  let ui2 := lit t ui2
  cast t (ui1 - ui2)

def mulFuncUU (ui1 ui2 : ℤ) : Expr :=
  let t := uintT w
  let ui1 := lit t ui1
  let ui2 := lit t ui2
  cast t (cast (promote2 w) ui1 * cast (promote2 w) ui2)

def modFuncUU (ui1 ui2 : ℤ) : Expr :=
  let t := uintT w
  let ui1 := lit t ui1
  let ui2 := lit t ui2
  cast t (cond (eq ui2 (lit .int 0)) ui1 (ui1 % ui2))

def divFuncUU (ui1 ui2 : ℤ) : Expr :=
  let t := uintT w
  let ui1 := lit t ui1
  let ui2 := lit t ui2
  cast t (cond (eq ui2 (lit .int 0)) ui1 (ui1 / ui2))

def lshiftFuncUS (left right : ℤ) : Expr :=
  let t := uintT w
  let left := lit t left
  let right := lit .int right
  cast t (cond
    (lor (lor (lt (cast .int right) (lit .int 0)) (ge (cast .int right) maxshift))
      (gt left (uintMax w >>> cast .int right)))
    left
    (left <<< cast .int right))

def lshiftFuncUU (left right : ℤ) : Expr :=
  let t := uintT w
  let left := lit t left
  let right := lit .unsigned right
  cast t (cond
    (lor (ge (cast .unsigned right) maxshift)
      (gt left (uintMax w >>> cast .unsigned right)))
    left
    (left <<< cast .unsigned right))

def rshiftFuncUS (left right : ℤ) : Expr :=
  let t := uintT w
  let left := lit t left
  let right := lit .int right
  cast t (cond
    (lor (lt (cast .int right) (lit .int 0)) (ge (cast .int right) maxshift))
    left
    (left >>> cast .int right))

def rshiftFuncUU (left right : ℤ) : Expr :=
  let t := uintT w
  let left := lit t left
  let right := lit .unsigned right
  cast t (cond
    (ge (cast .unsigned right) maxshift)
    left
    (left >>> cast .unsigned right))

end Func

end SafeMath

end CLSmith
