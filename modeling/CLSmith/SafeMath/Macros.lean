import CLSmith.Common.CInt
/-!
# The safe math macros

`safe_math_macros.m4`: the two templates, instantiated at a width, each
macro as the C expression it expands to. An argument is the value of the
argument expression; the macro's own declarations convert it.
-/

namespace CLSmith

namespace SafeMath

open Common Expr

/-- `CL_DEVICE_ADDRESS_BITS`, which fixes `size_t`. -/
inductive AddressBits
  | b32 | b64
deriving DecidableEq

/-- `size_t`. -/
def AddressBits.sizeT : AddressBits → IntTy
  | b32 => ⟨false, .w32⟩
  | b64 => ⟨false, .w64⟩

/-- `int8_t` to `int64_t`. -/
def intT (w : Width) : IntTy := ⟨true, w⟩

/-- `uint8_t` to `uint64_t`. -/
def uintT (w : Width) : IntTy := ⟨false, w⟩

/-- `INT8_MIN` to `INT64_MIN`, of the promoted type. -/
def intMin (w : Width) : Expr := lit (intT w).promote (intT w).minVal

/-- `INT8_MAX` to `INT64_MAX`. -/
def intMax (w : Width) : Expr := lit (intT w).promote (intT w).maxVal

/-- `UINT8_MAX` to `UINT64_MAX`. -/
def uintMax (w : Width) : Expr := lit (uintT w).promote (uintT w).maxVal

/-- `sizeof(t)*CHAR_BIT`. -/
def sizeofBits (a : AddressBits) (t : IntTy) : Expr :=
  lit a.sizeT (t.bits / 8 : ℕ) * lit .int 8

namespace Macro

variable (a : AddressBits) (w : Width)

/-! ## `safe_signed_math` -/

def safeUnaryMinusFuncS (_si : ℤ) : Expr :=
  let t := intT w
  let si := lit t _si
  cond (eq (cast t si) (intMin w))
    (cast t si)
    (-(cast t si))

def safeAddFuncSS (_si1 _si2 : ℤ) : Expr :=
  let t := intT w
  let si1 := lit t _si1
  let si2 := lit t _si2
  cond
    (lor
      (land (land (gt (cast t si1) (cast t (lit .int 0))) (gt (cast t si2) (cast t (lit .int 0))))
        (gt (cast t si1) (intMax w - cast t si2)))
      (land (land (lt (cast t si1) (cast t (lit .int 0))) (lt (cast t si2) (cast t (lit .int 0))))
        (lt (cast t si1) (intMin w - cast t si2))))
    (cast t si1)
    (cast t si1 + cast t si2)

/-- The mask is the type's least value as a bit pattern. -/
def safeSubFuncSS (_si1 _si2 : ℤ) : Expr :=
  let t := intT w
  let si1 := lit t _si1
  let si2 := lit t _si2
  cond
    (lt
      ((cast t si1 ^^^ cast t si2) &&&
        (((cast t si1 ^^^ ((cast t si1 ^^^ cast t si2) &&&
          shlBits (cast t (lit .int 1)) (sizeofBits a t - lit .int 1))) - cast t si2) ^^^
            cast t si2))
      (cast t (lit .int 0)))
    (cast t si1)
    (cast t si1 - cast t si2)

def safeMulFuncSS (_si1 _si2 : ℤ) : Expr :=
  let t := intT w
  let si1 := lit t _si1
  let si2 := lit t _si2
  cond
    (lor (lor (lor
      (land (land (gt (cast t si1) (cast t (lit .int 0))) (gt (cast t si2) (cast t (lit .int 0))))
        (gt (cast t si1) (intMax w / cast t si2)))
      (land (land (gt (cast t si1) (cast t (lit .int 0))) (le (cast t si2) (cast t (lit .int 0))))
        (lt (cast t si2) (intMin w / cast t si1))))
      (land (land (le (cast t si1) (cast t (lit .int 0))) (gt (cast t si2) (cast t (lit .int 0))))
        (lt (cast t si1) (intMin w / cast t si2))))
      (land (land (land (le (cast t si1) (cast t (lit .int 0)))
        (le (cast t si2) (cast t (lit .int 0)))) (ne (cast t si1) (cast t (lit .int 0))))
        (lt (cast t si2) (intMax w / cast t si1))))
    (cast t si1)
    (cast t si1 * cast t si2)

def safeModFuncSS (_si1 _si2 : ℤ) : Expr :=
  let t := intT w
  let si1 := lit t _si1
  let si2 := lit t _si2
  cond
    (lor (eq (cast t si2) (cast t (lit .int 0)))
      (land (eq (cast t si1) (intMin w)) (eq (cast t si2) (cast t (-lit .int 1)))))
    (cast t si1)
    (cast t si1 % cast t si2)

def safeDivFuncSS (_si1 _si2 : ℤ) : Expr :=
  let t := intT w
  let si1 := lit t _si1
  let si2 := lit t _si2
  cond
    (lor (eq (cast t si2) (cast t (lit .int 0)))
      (land (eq (cast t si1) (intMin w)) (eq (cast t si2) (cast t (-lit .int 1)))))
    (cast t si1)
    (cast t si1 / cast t si2)

def safeLshiftFuncSS (_left _right : ℤ) : Expr :=
  let t := intT w
  let left := lit t _left
  let right := lit .int _right
  cond
    (lor (lor (lor (lt (cast t left) (cast t (lit .int 0)))
      (lt (cast .int right) (cast t (lit .int 0))))
      (ge (cast .int right) (sizeofBits a t)))
      (gt (cast t left) (intMax w >>> cast .int right)))
    (cast t left)
    (cast t left <<< cast .int right)

def safeLshiftFuncSU (_left _right : ℤ) : Expr :=
  let t := intT w
  let left := lit t _left
  let right := lit .unsigned _right
  cond
    (lor (lor (lt (cast t left) (cast t (lit .int 0)))
      (ge (cast .unsigned right) (sizeofBits a t)))
      (gt (cast t left) (intMax w >>> cast .unsigned right)))
    (cast t left)
    (cast t left <<< cast .unsigned right)

def safeRshiftFuncSS (_left _right : ℤ) : Expr :=
  let t := intT w
  let left := lit t _left
  let right := lit .int _right
  cond
    (lor (lor (lt (cast t left) (cast t (lit .int 0)))
      (lt (cast .int right) (cast t (lit .int 0))))
      (ge (cast .int right) (sizeofBits a t)))
    (cast t left)
    (cast t left >>> cast .int right)

def safeRshiftFuncSU (_left _right : ℤ) : Expr :=
  let t := intT w
  let left := lit t _left
  let right := lit .unsigned _right
  cond
    (lor (lt (cast t left) (cast t (lit .int 0)))
      (ge (cast .unsigned right) (sizeofBits a t)))
    (cast t left)
    (cast t left >>> cast .unsigned right)

/-! ## `safe_unsigned_math` -/

/-- `promote`: `unsigned long` for `uint64_t`, else `unsigned int`. -/
def promote : IntTy := if w = .w64 then ⟨false, .w64⟩ else .unsigned

def safeUnaryMinusFuncU (_ui : ℤ) : Expr :=
  let t := uintT w
  let ui := lit t _ui;
  -(cast t ui)

def safeAddFuncUU (_ui1 _ui2 : ℤ) : Expr :=
  let t := uintT w
  let ui1 := lit t _ui1
  let ui2 := lit t _ui2
  cast t ui1 + cast t ui2

def safeSubFuncUU (_ui1 _ui2 : ℤ) : Expr :=
  let t := uintT w
  let ui1 := lit t _ui1
  let ui2 := lit t _ui2
  cast t ui1 - cast t ui2

def safeMulFuncUU (_ui1 _ui2 : ℤ) : Expr :=
  let t := uintT w
  let ui1 := lit t _ui1
  let ui2 := lit t _ui2
  cast t (cast (promote w) ui1 * cast (promote w) ui2)

def safeModFuncUU (_ui1 _ui2 : ℤ) : Expr :=
  let t := uintT w
  let ui1 := lit t _ui1
  let ui2 := lit t _ui2
  cond (eq (cast t ui2) (cast t (lit .int 0)))
    (cast t ui1)
    (cast t ui1 % cast t ui2)

def safeDivFuncUU (_ui1 _ui2 : ℤ) : Expr :=
  let t := uintT w
  let ui1 := lit t _ui1
  let ui2 := lit t _ui2
  cond (eq (cast t ui2) (cast t (lit .int 0)))
    (cast t ui1)
    (cast t ui1 / cast t ui2)

/-- At 32 and 64 bits the first test converts the count and never holds;
the second one then catches the negative counts. -/
def safeLshiftFuncUS (_left _right : ℤ) : Expr :=
  let t := uintT w
  let left := lit t _left
  let right := lit .int _right
  cond
    (lor (lor (lt (cast .int right) (cast t (lit .int 0)))
      (ge (cast .int right) (sizeofBits a t)))
      (gt (cast t left) (uintMax w >>> cast .int right)))
    (cast t left)
    (cast t left <<< cast .int right)

def safeLshiftFuncUU (_left _right : ℤ) : Expr :=
  let t := uintT w
  let left := lit t _left
  let right := lit .unsigned _right
  cond
    (lor (ge (cast .unsigned right) (sizeofBits a t))
      (gt (cast t left) (uintMax w >>> cast .unsigned right)))
    (cast t left)
    (cast t left <<< cast .unsigned right)

def safeRshiftFuncUS (_left _right : ℤ) : Expr :=
  let t := uintT w
  let left := lit t _left
  let right := lit .int _right
  cond
    (lor (lt (cast .int right) (cast t (lit .int 0)))
      (ge (cast .int right) (sizeofBits a t)))
    (cast t left)
    (cast t left >>> cast .int right)

def safeRshiftFuncUU (_left _right : ℤ) : Expr :=
  let t := uintT w
  let left := lit t _left
  let right := lit .unsigned _right
  cond (ge (cast .unsigned right) (sizeofBits a t))
    (cast t left)
    (cast t left >>> cast .unsigned right)

end Macro

end SafeMath

end CLSmith
