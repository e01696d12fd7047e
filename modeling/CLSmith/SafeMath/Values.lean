import CLSmith.SafeMath.Guards
import Mathlib.Algebra.Order.Ring.Abs
import Mathlib.Tactic.Tauto
/-!
# What the safe operators evaluate to

The macro and the function of every operator at every type, and the value
each returns on any pair of operands. A macro that returns is a macro whose
evaluation meets nothing undefined, so the values alone settle that.
-/

namespace CLSmith

namespace SafeMath

open Common Expr

/-- The operators; a shift by the type of its count, which the other operand does not
have to share. -/
inductive Op
  | unaryMinus | add | sub | mul | mod | div | lshiftS | lshiftU | rshiftS | rshiftU
deriving DecidableEq, Repr

/-- The type of an operator's second operand. -/
def Op.rightTy (t : IntTy) : Op → IntTy
  | lshiftS | rshiftS => .int
  | lshiftU | rshiftU => .unsigned
  | _ => t

/-- **The macro** `safe_<op>_func_<t>_…`; unary minus ignores `y`. A family of macros
that differ in their types only is one definition, applied to each of them. -/
def macroForm (a : AddressBits) (t : IntTy) (op : Op) (x y : ℤ) : Expr :=
  match t.signed, op with
  | true, .unaryMinus => Macro.safeUnaryMinusFuncS t.width x
  | true, .add => Macro.safeAddFuncSS t.width x y
  | true, .sub => Macro.safeSubFuncSS a t.width x y
  | true, .mul => Macro.safeMulFuncSS t.width x y
  | true, .mod => Macro.safeModFuncSS t.width x y
  | true, .div => Macro.safeDivFuncSS t.width x y
  | true, .lshiftS => Macro.safeLshiftFuncSS a t.width x y
  | true, .lshiftU => Macro.safeLshiftFuncSU a t.width x y
  | true, .rshiftS => Macro.safeRshiftFuncSS a t.width x y
  | true, .rshiftU => Macro.safeRshiftFuncSU a t.width x y
  | false, .unaryMinus => Macro.safeUnaryMinusFuncU t.width x
  | false, .add => Macro.safeAddFuncUU t.width x y
  | false, .sub => Macro.safeSubFuncUU t.width x y
  | false, .mul => Macro.safeMulFuncUU t.width x y
  | false, .mod => Macro.safeModFuncUU t.width x y
  | false, .div => Macro.safeDivFuncUU t.width x y
  | false, .lshiftS => Macro.safeLshiftFuncUS a t.width x y
  | false, .lshiftU => Macro.safeLshiftFuncUU a t.width x y
  | false, .rshiftS => Macro.safeRshiftFuncUS a t.width x y
  | false, .rshiftU => Macro.safeRshiftFuncUU a t.width x y

/-- **The function** `safe_<op>_func_<t>_…`, to which the macro of the same name is
compared. -/
def functionForm (t : IntTy) (op : Op) (x y : ℤ) : Expr :=
  match t.signed, op with
  | true, .unaryMinus => Func.unaryMinusFuncS t.width x
  | true, .add => Func.addFuncSS t.width x y
  | true, .sub => Func.subFuncSS t.width x y
  | true, .mul => Func.mulFuncSS t.width x y
  | true, .mod => Func.modFuncSS t.width x y
  | true, .div => Func.divFuncSS t.width x y
  | true, .lshiftS => Func.lshiftFuncSS t.width x y
  | true, .lshiftU => Func.lshiftFuncSU t.width x y
  | true, .rshiftS => Func.rshiftFuncSS t.width x y
  | true, .rshiftU => Func.rshiftFuncSU t.width x y
  | false, .unaryMinus => Func.unaryMinusFuncU t.width x
  | false, .add => Func.addFuncUU t.width x y
  | false, .sub => Func.subFuncUU t.width x y
  | false, .mul => Func.mulFuncUU t.width x y
  | false, .mod => Func.modFuncUU t.width x y
  | false, .div => Func.divFuncUU t.width x y
  | false, .lshiftS => Func.lshiftFuncUS t.width x y
  | false, .lshiftU => Func.lshiftFuncUU t.width x y
  | false, .rshiftS => Func.rshiftFuncUS t.width x y
  | false, .rshiftU => Func.rshiftFuncUU t.width x y

/-! ## The values -/

variable (t : IntTy) (x y : ℤ)

/-- `v` where the type represents it, else the first operand. -/
def keep (v : ℤ) : ℤ := if t.InRange v then v else x

/-- The operands a division or remainder is not evaluated on. -/
def DivKept : Prop := y = 0 ∨ t.signed ∧ x = t.minVal ∧ y = -1

instance : Decidable (DivKept t x y) :=
  inferInstanceAs (Decidable (y = 0 ∨ t.signed ∧ x = t.minVal ∧ y = -1))

/-- The operands a shift is not evaluated on, its counts below `n`. -/
def ShiftKept (n : ℕ) : Prop := x < 0 ∨ y < 0 ∨ n ≤ y

instance (n : ℕ) : Decidable (ShiftKept x y n) :=
  inferInstanceAs (Decidable (x < 0 ∨ y < 0 ∨ n ≤ y))

/-- A guarded left shift. -/
def lshiftVal (n : ℕ) : ℤ :=
  if ShiftKept x y n ∨ ¬ t.InRange (x * 2 ^ y.toNat) then x else x * 2 ^ y.toNat

/-- A guarded right shift. -/
def rshiftVal (n : ℕ) : ℤ := if ShiftKept x y n then x else x / 2 ^ y.toNat

section

variable {t x y} {n : ℕ}

theorem lshiftVal_kept (h : x < 0 ∨ y < 0 ∨ n ≤ y) : lshiftVal t x y n = x :=
  if_pos (Or.inl h)

theorem lshiftVal_lost (h : ¬ t.InRange (x * 2 ^ y.toNat)) : lshiftVal t x y n = x :=
  if_pos (Or.inr h)

theorem lshiftVal_exact (h : ¬ (x < 0 ∨ y < 0 ∨ n ≤ y)) (hr : t.InRange (x * 2 ^ y.toNat)) :
    lshiftVal t x y n = x * 2 ^ y.toNat :=
  if_neg fun h' => h'.elim h (fun hl => hl hr)

theorem rshiftVal_kept (h : x < 0 ∨ y < 0 ∨ n ≤ y) : rshiftVal x y n = x := if_pos h

theorem rshiftVal_exact (h : ¬ (x < 0 ∨ y < 0 ∨ n ≤ y)) :
    rshiftVal x y n = x / 2 ^ y.toNat := if_neg h

end

/-- What the macro of an operator evaluates to. The unsigned sums are not
cast back, so below `int` they are values of `int`. -/
def macroVal : Op → ℤ
  | .unaryMinus => if t.signed then keep t x (-x) else t.promote.wrap (-x)
  | .add => if t.signed then keep t x (x + y) else t.promote.wrap (x + y)
  | .sub =>
    if t.signed then
      if ¬ (x < 0 ↔ y < 0) ∧ (t.width.Narrow ∨ ¬ t.InRange (x - y)) then x else x - y
    else t.promote.wrap (x - y)
  | .mul => if t.signed then keep t x (x * y) else t.wrap (x * y)
  | .mod => if DivKept t x y then x else x.tmod y
  | .div => if DivKept t x y then x else x.tdiv y
  | .lshiftS | .lshiftU => lshiftVal t x y t.bits
  | .rshiftS | .rshiftU => rshiftVal x y t.bits

/-- The result of a function: guarded from `int` on, else converted. -/
def fit (v : ℤ) : ℤ := if t.signed ∧ ¬ t.width.Narrow then keep t x v else t.wrap v

/-- What the function of an operator returns. -/
def functionVal : Op → ℤ
  | .unaryMinus => fit t x (-x)
  | .add => fit t x (x + y)
  | .sub => fit t x (x - y)
  | .mul => fit t x (x * y)
  | .mod => if DivKept t x y then x else x.tmod y
  | .div => if DivKept t x y then x else x.tdiv y
  | .lshiftS | .lshiftU => lshiftVal t x y 32
  | .rshiftS | .rshiftU => rshiftVal x y 32

/-! ## The macros return them -/

section Macros

variable {t x y} {w : Width} (a : AddressBits)

theorem macro_left (t : IntTy) (x : ℤ) : (cast t (lit t x)).Returns (t.wrap x) :=
  (Returns.lit_wrap t x).cast (IntTy.wrap_inRange x)

theorem macro_zero (t : IntTy) : (cast t (lit .int 0)).Returns 0 :=
  (Returns.lit inRange_zero).cast inRange_zero

/-- The operands as the macros spell them. -/
theorem macro_args (t : IntTy) (x y : ℤ) :
    Args t (cast t (lit t x)) (cast t (lit t y)) (cast t (lit .int 0)) (t.wrap x) (t.wrap y) where
  left := macro_left t x
  leftTy := rfl
  right := macro_left t y
  rightTy := rfl
  zero := macro_zero t
  zeroTy := IntTy.common_eq rfl rfl

theorem promote_common (t : IntTy) : (IntTy.common t t).promote = t.promote := by
  rw [IntTy.common_eq rfl rfl, IntTy.promote_promote]

theorem safeUnaryMinusFuncS_returns (x : ℤ) :
    (Macro.safeUnaryMinusFuncS w x).Returns
      (keep (intT w) ((intT w).wrap x) (-(intT w).wrap x)) :=
  (macro_args (intT w) x x).unaryMinus

theorem safeAddFuncSS_returns (x y : ℤ) :
    (Macro.safeAddFuncSS w x y).Returns
      (keep (intT w) ((intT w).wrap x) ((intT w).wrap x + (intT w).wrap y)) := by
  have h := macro_args (intT w) x y
  exact h.guarded (promote_common _) h.addGuard fun hr =>
    h.left.add h.right h.left_promote h.right_promote hr.promote

theorem safeMulFuncSS_returns (x y : ℤ) :
    (Macro.safeMulFuncSS w x y).Returns
      (keep (intT w) ((intT w).wrap x) ((intT w).wrap x * (intT w).wrap y)) := by
  have h := macro_args (intT w) x y
  exact h.guarded (promote_common _) h.mulGuard fun hr =>
    h.left.mul h.right h.left_promote h.right_promote hr.promote

/-- The mask of the subtractions, `(t)1 << (sizeof(t)*CHAR_BIT-1)`. -/
theorem macro_mask (w : Width) :
    (shlBits (cast (intT w) (lit .int 1)) (sizeofBits a (intT w) - lit .int 1)).Returns
      ((intT w).promote.wrap (2 ^ (w.bits - 1))) := by
  have hone : (cast (intT w) (lit .int 1)).Returns 1 := by
    refine (Returns.lit (by decide)).cast ?_
    cases w <;> decide
  have hcount : (sizeofBits a (intT w) - lit .int 1).Returns (w.bits - 1 : ℕ) := by
    cases a <;> cases w <;> rfl
  have h := hone.shlBits (t := (intT w).promote) rfl hcount (by cases w <;> decide)
  rwa [Int.one_mul] at h

theorem macro_neg_one (w : Width) : (cast (intT w) (-lit .int 1)).Returns (-1) := by
  cases w <;> rfl

theorem safeSubFuncSS_returns (x y : ℤ) :
    (Macro.safeSubFuncSS a w x y).Returns
      (macroVal (intT w) ((intT w).wrap x) ((intT w).wrap y) .sub) :=
  (macro_args (intT w) x y).sub (macro_mask a w) (IntTy.promote_promote) rfl

theorem divKept_intT {x y : ℤ} :
    DivKept (intT w) x y ↔ y = 0 ∨ (x = (intT w).minVal ∧ y = -1) := by
  simp [DivKept, intT]

theorem divKept_uintT {x y : ℤ} : DivKept (uintT w) x y ↔ y = 0 := by
  simp [DivKept, uintT]

theorem safeDivFuncSS_returns (x y : ℤ) :
    (Macro.safeDivFuncSS w x y).Returns
      (macroVal (intT w) ((intT w).wrap x) ((intT w).wrap y) .div) := by
  have h := (macro_args (intT w) x y).div (macro_neg_one w) (IntTy.common_eq rfl rfl)
  simp only [macroVal, divKept_intT]
  exact h

theorem safeModFuncSS_returns (x y : ℤ) :
    (Macro.safeModFuncSS w x y).Returns
      (macroVal (intT w) ((intT w).wrap x) ((intT w).wrap y) .mod) := by
  have h := (macro_args (intT w) x y).mod (macro_neg_one w) (IntTy.common_eq rfl rfl)
  simp only [macroVal, divKept_intT]
  exact h

theorem safeDivFuncUU_returns (x y : ℤ) :
    (Macro.safeDivFuncUU w x y).Returns
      (macroVal (uintT w) ((uintT w).wrap x) ((uintT w).wrap y) .div) := by
  have h := (macro_args (uintT w) x y).udiv
  simp only [macroVal, divKept_uintT]
  exact h

theorem safeModFuncUU_returns (x y : ℤ) :
    (Macro.safeModFuncUU w x y).Returns
      (macroVal (uintT w) ((uintT w).wrap x) ((uintT w).wrap y) .mod) := by
  have h := (macro_args (uintT w) x y).umod
  simp only [macroVal, divKept_uintT]
  exact h

theorem safeUnaryMinusFuncU_returns (x : ℤ) :
    (Macro.safeUnaryMinusFuncU w x).Returns ((uintT w).promote.wrap (-(uintT w).wrap x)) :=
  (macro_args (uintT w) x x).uneg

theorem safeAddFuncUU_returns (x y : ℤ) :
    (Macro.safeAddFuncUU w x y).Returns
      ((uintT w).promote.wrap ((uintT w).wrap x + (uintT w).wrap y)) :=
  (macro_args (uintT w) x y).uadd

theorem safeSubFuncUU_returns (x y : ℤ) :
    (Macro.safeSubFuncUU w x y).Returns
      ((uintT w).promote.wrap ((uintT w).wrap x - (uintT w).wrap y)) :=
  (macro_args (uintT w) x y).usub

/-- Both `promote`s name the type wide enough for the product. -/
theorem unsignedProduct {A B : Expr} {x y : ℤ} {p : IntTy} (hA : A.Returns x) (hB : B.Returns y)
    (hAt : A.ty = uintT w) (hBt : B.ty = uintT w) (hp : p = Macro.promote w) :
    (cast (uintT w) (cast p A * cast p B)).Returns ((uintT w).wrap (x * y)) := by
  have hps : p.signed = false := by rw [hp]; cases w <;> rfl
  have hpp : p.promote = p := by rw [hp]; cases w <;> rfl
  have hmin := p.minVal_unsigned hps
  have hmin' := (uintT w).minVal_unsigned rfl
  have hmax : (uintT w).maxVal ≤ p.maxVal := by rw [hp]; cases w <;> decide
  have hcast : ∀ {e : Expr} {v : ℤ}, e.Returns v → e.ty = uintT w → (cast p e).Returns v := by
    intro e v he het
    obtain ⟨h₀, h₁⟩ := inRange_of he het
    exact he.cast ⟨by omega, by omega⟩
  have h := ((hcast hA hAt).arith_wrap (hcast hB hBt) hpp hpp (f := (· * ·)) hps).cast_wrap
    (t := uintT w)
  rwa [IntTy.wrap_unsigned hps, IntTy.wrap_unsigned rfl, Int.emod_emod_of_dvd _ ?_,
    ← IntTy.wrap_unsigned rfl] at h
  rw [hp]
  exact pow_dvd_pow 2 (by cases w <;> decide)

theorem safeMulFuncUU_returns (x y : ℤ) :
    (Macro.safeMulFuncUU w x y).Returns
      ((uintT w).wrap ((uintT w).wrap x * (uintT w).wrap y)) :=
  unsignedProduct (.lit_wrap _ x) (.lit_wrap _ y) rfl rfl rfl

/-- A count, and the tests the shift macros put it to. -/
theorem macro_count {c : IntTy} (hc : c = .int ∨ c = .unsigned) (t : IntTy) (y : ℤ) :
    (cast c (lit c y)).Returns (c.wrap y) ∧
      (ge (cast c (lit c y)) (sizeofBits a t)).Decides (c.wrap y < 0 ∨ t.bits ≤ c.wrap y) :=
  have h := macro_left c y
  ⟨h, size_compare a t h hc⟩

/-- The test `right < (t)0`: whatever the conversion, it holds of negative
counts only. -/
theorem macro_negCount (t : IntTy) (y : ℤ) :
    ∃ p : Prop, (lt (cast .int (lit .int y)) (cast t (lit .int 0))).Decides p ∧
      (p → IntTy.int.wrap y < 0) := by
  have hy := macro_left .int y
  have hp : IntTy.common .int t = t.promote := by
    rw [IntTy.common_comm, IntTy.common_int]
  refine ⟨_, .compare_wrap hy (macro_zero t) hp, fun h => ?_⟩
  by_contra hc
  have hr : t.promote.InRange (IntTy.int.wrap y) := by
    obtain ⟨-, h₁⟩ := IntTy.wrap_inRange (t := .int) y
    have hmin := t.promote.minVal_nonpos
    have hmax : IntTy.int.maxVal ≤ t.promote.maxVal := by
      obtain ⟨s, w⟩ := t
      cases s <;> cases w <;> decide
    exact ⟨by omega, by omega⟩
  rw [IntTy.wrap_of_inRange hr, IntTy.wrap_of_inRange inRange_zero.promote] at h
  exact hc h

theorem bits_le_promote (t : IntTy) : t.bits ≤ t.promote.bits := by
  obtain ⟨s, w⟩ := t
  cases s <;> cases w <;> decide

/-- The guard of the signed shifts by an `int`. -/
theorem macro_guardSS (x y : ℤ) :
    (lor (lor (lt (cast (intT w) (lit (intT w) x)) (cast (intT w) (lit .int 0)))
      (lt (cast .int (lit .int y)) (cast (intT w) (lit .int 0))))
      (ge (cast .int (lit .int y)) (sizeofBits a (intT w)))).Decides
        (ShiftKept ((intT w).wrap x) (IntTy.int.wrap y) w.bits) := by
  obtain ⟨hy, hsize⟩ := macro_count a (Or.inl rfl) (intT w) y
  obtain ⟨p, hneg, hp⟩ := macro_negCount (intT w) y
  refine (((macro_args (intT w) x x).left_zero.lor fun _ => hneg).lor fun _ => hsize).congr ?_
  rw [show (intT w).bits = w.bits from rfl]
  unfold ShiftKept
  tauto

/-- The guard of the signed shifts by an `unsigned int`. -/
theorem macro_guardSU (x y : ℤ) :
    (lor (lt (cast (intT w) (lit (intT w) x)) (cast (intT w) (lit .int 0)))
      (ge (cast .unsigned (lit .unsigned y)) (sizeofBits a (intT w)))).Decides
        (ShiftKept ((intT w).wrap x) (IntTy.unsigned.wrap y) w.bits) := by
  obtain ⟨hy, hsize⟩ := macro_count a (Or.inr rfl) (intT w) y
  exact (macro_args (intT w) x x).left_zero.lor fun _ => hsize

theorem wrap_uintT_nonneg (w : Width) (x : ℤ) : ¬ (uintT w).wrap x < 0 := by
  have h₀ := (IntTy.wrap_inRange (t := uintT w) x).1
  rw [(uintT w).minVal_unsigned rfl] at h₀
  omega

/-- The guard of the unsigned shifts by an `int`. -/
theorem macro_guardUS (x y : ℤ) :
    (lor (lt (cast .int (lit .int y)) (cast (uintT w) (lit .int 0)))
      (ge (cast .int (lit .int y)) (sizeofBits a (uintT w)))).Decides
        (ShiftKept ((uintT w).wrap x) (IntTy.int.wrap y) w.bits) := by
  obtain ⟨hy, hsize⟩ := macro_count a (Or.inl rfl) (uintT w) y
  obtain ⟨p, hneg, hp⟩ := macro_negCount (uintT w) y
  have hx := wrap_uintT_nonneg w x
  refine (hneg.lor fun _ => hsize).congr ?_
  rw [show (uintT w).bits = w.bits from rfl]
  unfold ShiftKept
  tauto

/-- The guard of the unsigned shifts by an `unsigned int`. -/
theorem macro_guardUU (x y : ℤ) :
    (ge (cast .unsigned (lit .unsigned y)) (sizeofBits a (uintT w))).Decides
      (ShiftKept ((uintT w).wrap x) (IntTy.unsigned.wrap y) w.bits) := by
  have hx := wrap_uintT_nonneg w x
  refine (macro_count a (Or.inr rfl) (uintT w) y).2.congr ?_
  rw [show (uintT w).bits = w.bits from rfl]
  unfold ShiftKept
  tauto

/-- **Every macro returns its value**, on any operands as the macro's
declarations convert them. -/
theorem macro_returns (t : IntTy) (op : Op) (x y : ℤ) :
    (macroForm a t op x y).Returns (macroVal t (t.wrap x) ((op.rightTy t).wrap y) op) := by
  obtain ⟨s, w⟩ := t
  cases s
  · cases op with
    | unaryMinus => exact safeUnaryMinusFuncU_returns x
    | add => exact safeAddFuncUU_returns x y
    | sub => exact safeSubFuncUU_returns x y
    | mul => exact safeMulFuncUU_returns x y
    | mod => exact safeModFuncUU_returns x y
    | div => exact safeDivFuncUU_returns x y
    | lshiftS =>
      exact lshift_returns (macro_left (uintT w) x) rfl (macro_left .int y)
        (bits_le_promote (uintT w)) (macro_guardUS a x y) (uintMax_returns w) rfl
    | lshiftU =>
      exact lshift_returns (macro_left (uintT w) x) rfl (macro_left .unsigned y)
        (bits_le_promote (uintT w)) (macro_guardUU a x y) (uintMax_returns w) rfl
    | rshiftS =>
      exact rshift_returns (macro_left (uintT w) x) rfl (macro_left .int y)
        (bits_le_promote (uintT w)) (macro_guardUS a x y)
    | rshiftU =>
      exact rshift_returns (macro_left (uintT w) x) rfl (macro_left .unsigned y)
        (bits_le_promote (uintT w)) (macro_guardUU a x y)
  · cases op with
    | unaryMinus => exact safeUnaryMinusFuncS_returns x
    | add => exact safeAddFuncSS_returns x y
    | sub => exact safeSubFuncSS_returns a x y
    | mul => exact safeMulFuncSS_returns x y
    | mod => exact safeModFuncSS_returns x y
    | div => exact safeDivFuncSS_returns x y
    | lshiftS =>
      exact lshift_returns (macro_left (intT w) x) rfl (macro_left .int y)
        (bits_le_promote (intT w)) (macro_guardSS a x y) (intMax_returns w) rfl
    | lshiftU =>
      exact lshift_returns (macro_left (intT w) x) rfl (macro_left .unsigned y)
        (bits_le_promote (intT w)) (macro_guardSU a x y) (intMax_returns w) rfl
    | rshiftS =>
      exact rshift_returns (macro_left (intT w) x) rfl (macro_left .int y)
        (bits_le_promote (intT w)) (macro_guardSS a x y)
    | rshiftU =>
      exact rshift_returns (macro_left (intT w) x) rfl (macro_left .unsigned y)
        (bits_le_promote (intT w)) (macro_guardSU a x y)

end Macros

/-! ## The functions return theirs -/

section Functions

open Func

variable {t : IntTy} {x y : ℤ} {w : Width}

/-- The operands as the functions spell them. -/
theorem function_args (t : IntTy) (x y : ℤ) :
    Args t (lit t x) (lit t y) (lit .int 0) (t.wrap x) (t.wrap y) where
  left := .lit_wrap t x
  leftTy := rfl
  right := .lit_wrap t y
  rightTy := rfl
  zero := .lit inRange_zero
  zeroTy := IntTy.common_int

theorem guarded_iff (w : Width) : Guarded w ↔ ¬ w.Narrow := by cases w <;> decide

theorem keep_inRange {v : ℤ} (hx : t.InRange x) : t.InRange (keep t x v) := by
  unfold keep
  split
  · assumption
  · exact hx

/-- A body under `#if`, converted to the result type. -/
theorem guardedBody {g e : Expr} {v : ℤ} (hx : (intT w).InRange x)
    (hg : ¬ w.Narrow → g.Returns (keep (intT w) x v)) (he : w.Narrow → e.Returns v) :
    (cast (intT w) (if Guarded w then g else e)).Returns (fit (intT w) x v) := by
  by_cases hw : w.Narrow
  · rw [if_neg (by rw [guarded_iff]; exact not_not.mpr hw), fit,
      if_neg (fun h => h.2 hw)]
    exact (he hw).cast_wrap
  · rw [if_pos ((guarded_iff w).mpr hw), fit, if_pos ⟨rfl, hw⟩]
    exact (hg hw).cast (keep_inRange hx)

/-- The operands below `int`, and what of their operations `int` holds. -/
theorem narrow_bounds (hw : w.Narrow) (hx : (intT w).InRange x) : -32768 ≤ x ∧ x ≤ 32767 := by
  obtain ⟨h₀, h₁⟩ := hx
  have hmax : (intT w).maxVal ≤ 32767 := by
    rcases hw with rfl | rfl <;> decide
  have hmin := intT_minVal w
  omega

theorem narrow_inRange {v : ℤ} (hw : w.Narrow) (h₀ : -1073741824 ≤ v) (h₁ : v ≤ 1073741824) :
    (intT w).promote.InRange v := by
  have hint : IntTy.int.minVal = -2147483648 ∧ IntTy.int.maxVal = 2147483647 := by decide
  have hp : (intT w).promote = .int := by
    rcases hw with rfl | rfl <;> rfl
  rw [hp]
  exact ⟨by omega, by omega⟩

theorem narrow_mul (hw : w.Narrow) (hx : (intT w).InRange x) (hy : (intT w).InRange y) :
    (intT w).promote.InRange (x * y) := by
  obtain ⟨hx₀, hx₁⟩ := narrow_bounds hw hx
  obtain ⟨hy₀, hy₁⟩ := narrow_bounds hw hy
  have habs : |x * y| ≤ 32768 * 32768 := by
    rw [abs_mul]
    exact mul_le_mul (abs_le.mpr ⟨hx₀, by omega⟩) (abs_le.mpr ⟨hy₀, by omega⟩) (abs_nonneg y)
      (by decide)
  obtain ⟨h₀, h₁⟩ := abs_le.mp habs
  exact narrow_inRange hw (by omega) (by omega)

theorem unaryMinusFuncS_returns (x : ℤ) :
    (unaryMinusFuncS w x).Returns (fit (intT w) ((intT w).wrap x) (-(intT w).wrap x)) := by
  have h := function_args (intT w) x x
  refine guardedBody h.left_inRange (fun _ => h.unaryMinus) fun hw => ?_
  obtain ⟨hx₀, hx₁⟩ := narrow_bounds hw h.left_inRange
  exact h.left.neg h.left_promote (narrow_inRange hw (by omega) (by omega))

theorem addFuncSS_returns (x y : ℤ) :
    (addFuncSS w x y).Returns
      (fit (intT w) ((intT w).wrap x) ((intT w).wrap x + (intT w).wrap y)) := by
  have h := function_args (intT w) x y
  have hadd := h.left.add h.right h.left_promote h.right_promote
  refine guardedBody h.left_inRange
    (fun _ => h.guarded (promote_common _) h.addGuard fun hr => hadd hr.promote) fun hw => ?_
  obtain ⟨hx₀, hx₁⟩ := narrow_bounds hw h.left_inRange
  obtain ⟨hy₀, hy₁⟩ := narrow_bounds hw h.right_inRange
  exact hadd (narrow_inRange hw (by omega) (by omega))

theorem mulFuncSS_returns (x y : ℤ) :
    (mulFuncSS w x y).Returns
      (fit (intT w) ((intT w).wrap x) ((intT w).wrap x * (intT w).wrap y)) := by
  have h := function_args (intT w) x y
  have hmul := h.left.mul h.right h.left_promote h.right_promote
  exact guardedBody h.left_inRange
    (fun _ => h.guarded (promote_common _) h.mulGuard fun hr => hmul hr.promote)
    fun hw => hmul (narrow_mul hw h.left_inRange h.right_inRange)

/-- From `int` on `~MAX` is the least value, the mask of the macros. -/
theorem function_mask (hw : ¬ w.Narrow) :
    (compl (intMax w)).Returns ((intT w).promote.wrap (2 ^ (w.bits - 1))) := by
  have h := (intMax_returns w).compl (intMax_promote w)
  have hmin := intT_minVal w
  have hmask := mask_cases w
  have hr : (intT w).promote.InRange (-(intT w).maxVal - 1) :=
    IntTy.InRange.promote (by
      rw [show -(intT w).maxVal - 1 = (intT w).minVal by omega]
      exact inRange_minVal)
  rw [IntTy.wrap_of_inRange hr] at h
  obtain ⟨hn, -⟩ | ⟨-, hk, -⟩ := hmask
  · exact absurd hn hw
  · rw [hk, show -((intT w).maxVal + 1) = -(intT w).maxVal - 1 by omega]
    exact h

theorem subFuncSS_returns (x y : ℤ) :
    (subFuncSS w x y).Returns
      (fit (intT w) ((intT w).wrap x) ((intT w).wrap x - (intT w).wrap y)) := by
  have h := function_args (intT w) x y
  refine guardedBody h.left_inRange (fun hw => ?_) fun hw => ?_
  · have hsub := h.sub (function_mask hw)
      (by rw [ty_compl, intMax_promote, IntTy.promote_promote]) rfl
    have hval : keep (intT w) ((intT w).wrap x) ((intT w).wrap x - (intT w).wrap y) =
        if ¬ ((intT w).wrap x < 0 ↔ (intT w).wrap y < 0) ∧
          (w.Narrow ∨ ¬ (intT w).InRange ((intT w).wrap x - (intT w).wrap y))
        then (intT w).wrap x else (intT w).wrap x - (intT w).wrap y := by
      have hmin := intT_minVal w
      obtain ⟨hx₀, hx₁⟩ := h.left_inRange
      obtain ⟨hy₀, hy₁⟩ := h.right_inRange
      simp only [hw, false_or]
      unfold keep IntTy.InRange
      split_ifs <;> omega
    rw [hval]
    exact hsub
  · obtain ⟨hx₀, hx₁⟩ := narrow_bounds hw h.left_inRange
    obtain ⟨hy₀, hy₁⟩ := narrow_bounds hw h.right_inRange
    exact h.left.sub h.right h.left_promote h.right_promote
      (narrow_inRange hw (by omega) (by omega))

theorem function_neg_one : (-lit .int 1).Returns (-1) := rfl

theorem divFuncSS_returns (x y : ℤ) :
    (divFuncSS w x y).Returns
      (functionVal (intT w) ((intT w).wrap x) ((intT w).wrap y) .div) := by
  have h := function_args (intT w) x y
  simp only [functionVal, divKept_intT]
  refine (h.div function_neg_one IntTy.common_int).cast ?_
  split_ifs with hg
  · exact h.left_inRange
  · exact h.tdiv_inRange hg

theorem modFuncSS_returns (x y : ℤ) :
    (modFuncSS w x y).Returns
      (functionVal (intT w) ((intT w).wrap x) ((intT w).wrap y) .mod) := by
  have h := function_args (intT w) x y
  simp only [functionVal, divKept_intT]
  refine (h.mod function_neg_one IntTy.common_int).cast ?_
  split_ifs with hg
  · exact h.left_inRange
  · exact h.tmod_inRange fun hy => hg (Or.inl hy)

theorem divFuncUU_returns (x y : ℤ) :
    (divFuncUU w x y).Returns
      (functionVal (uintT w) ((uintT w).wrap x) ((uintT w).wrap y) .div) := by
  have h := function_args (uintT w) x y
  simp only [functionVal, divKept_uintT]
  refine h.udiv.cast ?_
  split_ifs with hg
  · exact h.left_inRange
  · exact h.utdiv_inRange

theorem modFuncUU_returns (x y : ℤ) :
    (modFuncUU w x y).Returns
      (functionVal (uintT w) ((uintT w).wrap x) ((uintT w).wrap y) .mod) := by
  have h := function_args (uintT w) x y
  simp only [functionVal, divKept_uintT]
  refine h.umod.cast ?_
  split_ifs with hg
  · exact h.left_inRange
  · exact h.utmod_inRange hg

/-- An unsigned function computes in the promoted type and converts back:
the result modulo the cardinality, whichever way. -/
theorem unsignedBody {e : Expr} {v : ℤ} (he : e.Returns ((uintT w).promote.wrap v)) :
    (cast (uintT w) e).Returns (fit (uintT w) x v) := by
  have h := he.cast_wrap (t := uintT w)
  have hv : (uintT w).wrap ((uintT w).promote.wrap v) = (uintT w).wrap v := by
    have hd : (uintT w).card ∣ (uintT w).promote.card :=
      pow_dvd_pow 2 (bits_le_promote (uintT w))
    rw [IntTy.wrap_unsigned (t := uintT w) rfl, IntTy.wrap_unsigned (t := uintT w) rfl]
    unfold IntTy.wrap
    rw [Int.add_emod, Int.emod_emod_of_dvd _ hd, ← Int.add_emod, sub_add_cancel]
  rw [hv] at h
  exact h

/-- The guard of the signed shifts by an `int`. -/
theorem function_count (y : ℤ) :
    (cast .int (lit .int y)).Returns (IntTy.int.wrap y) ∧
      (lt (cast .int (lit .int y)) (lit .int 0)).Decides (IntTy.int.wrap y < 0) ∧
      (ge (cast .int (lit .int y)) maxshift).Decides (32 ≤ IntTy.int.wrap y) := by
  have hy := macro_left .int y
  have hr := IntTy.wrap_inRange (t := .int) y
  refine ⟨hy, .compare hy (.lit inRange_zero) rfl hr inRange_zero, ?_⟩
  exact .compare (t := .int) hy (.lit (by decide)) rfl hr (by decide)

/-- The count of a shift by an `unsigned int`. -/
theorem function_ucount (y : ℤ) :
    (cast .unsigned (lit .unsigned y)).Returns (IntTy.unsigned.wrap y) ∧
      (ge (cast .unsigned (lit .unsigned y)) maxshift).Decides
        (IntTy.unsigned.wrap y < 0 ∨ (32 : ℕ) ≤ IntTy.unsigned.wrap y) := by
  have hy := macro_left .unsigned y
  have hr := IntTy.wrap_inRange (t := .unsigned) y
  refine ⟨hy, ?_⟩
  have hc : (ge (cast .unsigned (lit .unsigned y)) maxshift).Decides
      (32 ≤ IntTy.unsigned.wrap y) :=
    .compare (t := .unsigned) hy (.lit (by decide)) rfl hr (by decide)
  refine hc.congr ?_
  have h₀ := hr.1
  rw [show IntTy.unsigned.minVal = 0 from rfl] at h₀
  omega

theorem lshiftVal_inRange {n : ℕ} (hx : t.InRange x) : t.InRange (lshiftVal t x y n) := by
  unfold lshiftVal
  split_ifs with h
  · exact hx
  · exact not_not.mp (not_or.mp h).2

theorem rshiftVal_inRange {n : ℕ} (hx : t.InRange x) : t.InRange (rshiftVal x y n) := by
  unfold rshiftVal
  split_ifs with h
  · exact hx
  · exact shr_inRange hx (not_lt.mp (not_or.mp h).1) _

section Shift

variable {D M R : Expr} {c : ℤ} (hR : R.Returns c) (hn : 32 ≤ t.promote.bits)
  (hD : D.Decides (ShiftKept (t.wrap x) c 32))
include hR hn hD

theorem lshiftBody (hM : M.Returns t.maxVal) (hMt : M.ty = t.promote) :
    (cast t (cond (lor D (gt (lit t x) (M >>> R))) (lit t x) (lit t x <<< R))).Returns
      (lshiftVal t (t.wrap x) c 32) :=
  (lshift_returns (.lit_wrap t x) rfl hR hn hD hM hMt).cast
    (lshiftVal_inRange (IntTy.wrap_inRange x))

theorem rshiftBody :
    (cast t (cond D (lit t x) (lit t x >>> R))).Returns (rshiftVal (t.wrap x) c 32) :=
  (rshift_returns (.lit_wrap t x) rfl hR hn hD).cast
    (rshiftVal_inRange (IntTy.wrap_inRange x))

end Shift

theorem promote_bits (t : IntTy) : 32 ≤ t.promote.bits := by
  obtain ⟨s, w⟩ := t
  cases s <;> cases w <;> decide

theorem function_guardSS (x y : ℤ) :
    (lor (lor (lt (lit (intT w) x) (lit .int 0)) (lt (cast .int (lit .int y)) (lit .int 0)))
      (ge (cast .int (lit .int y)) maxshift)).Decides
        (ShiftKept ((intT w).wrap x) (IntTy.int.wrap y) 32) := by
  obtain ⟨-, hneg, hmax⟩ := function_count y
  refine (((function_args (intT w) x x).left_zero.lor fun _ => hneg).lor
    fun _ => hmax).congr ?_
  exact or_assoc

theorem function_guardSU (x y : ℤ) :
    (lor (lt (lit (intT w) x) (lit .int 0))
      (ge (cast .unsigned (lit .unsigned y)) maxshift)).Decides
        (ShiftKept ((intT w).wrap x) (IntTy.unsigned.wrap y) 32) :=
  (function_args (intT w) x x).left_zero.lor fun _ => (function_ucount y).2

theorem function_guardUS (x y : ℤ) :
    (lor (lt (cast .int (lit .int y)) (lit .int 0))
      (ge (cast .int (lit .int y)) maxshift)).Decides
        (ShiftKept ((uintT w).wrap x) (IntTy.int.wrap y) 32) := by
  obtain ⟨-, hneg, hmax⟩ := function_count y
  refine (hneg.lor fun _ => hmax).congr ?_
  exact (or_iff_right (wrap_uintT_nonneg w x)).symm

theorem function_guardUU (x y : ℤ) :
    (ge (cast .unsigned (lit .unsigned y)) maxshift).Decides
      (ShiftKept ((uintT w).wrap x) (IntTy.unsigned.wrap y) 32) :=
  (function_ucount y).2.congr (or_iff_right (wrap_uintT_nonneg w x)).symm

/-- **Every function returns its value**, on any operands as its parameters
convert them. -/
theorem function_returns (t : IntTy) (op : Op) (x y : ℤ) :
    (functionForm t op x y).Returns
      (functionVal t (t.wrap x) ((op.rightTy t).wrap y) op) := by
  obtain ⟨s, w⟩ := t
  cases s
  · cases op with
    | unaryMinus => exact unsignedBody (function_args (uintT w) x x).uneg
    | add => exact unsignedBody (function_args (uintT w) x y).uadd
    | sub => exact unsignedBody (function_args (uintT w) x y).usub
    | mul => exact unsignedProduct (.lit_wrap _ x) (.lit_wrap _ y) rfl rfl rfl
    | mod => exact modFuncUU_returns x y
    | div => exact divFuncUU_returns x y
    | lshiftS =>
      exact lshiftBody (function_count y).1 (promote_bits _) (function_guardUS x y)
        (uintMax_returns w) rfl
    | lshiftU =>
      exact lshiftBody (function_ucount y).1 (promote_bits _) (function_guardUU x y)
        (uintMax_returns w) rfl
    | rshiftS => exact rshiftBody (function_count y).1 (promote_bits _) (function_guardUS x y)
    | rshiftU => exact rshiftBody (function_ucount y).1 (promote_bits _) (function_guardUU x y)
  · cases op with
    | unaryMinus => exact unaryMinusFuncS_returns x
    | add => exact addFuncSS_returns x y
    | sub => exact subFuncSS_returns x y
    | mul => exact mulFuncSS_returns x y
    | mod => exact modFuncSS_returns x y
    | div => exact divFuncSS_returns x y
    | lshiftS =>
      exact lshiftBody (function_count y).1 (promote_bits _) (function_guardSS x y)
        (intMax_returns w) rfl
    | lshiftU =>
      exact lshiftBody (function_ucount y).1 (promote_bits _) (function_guardSU x y)
        (intMax_returns w) rfl
    | rshiftS => exact rshiftBody (function_count y).1 (promote_bits _) (function_guardSS x y)
    | rshiftU => exact rshiftBody (function_ucount y).1 (promote_bits _) (function_guardSU x y)

end Functions

end SafeMath

end CLSmith
