import Mathlib.Data.Int.Bitwise
import Mathlib.Data.BitVec
import Mathlib.Tactic.Zify
/-!
# C integer expressions

The integer types of two's complement C, their promotion and usual
arithmetic conversions, and expressions that carry their static type with
their evaluation, which yields a value or undefined behaviour. The rules at
the end read an expression off by its parts: what it returns (`Returns`)
and which condition it decides (`Decides`).
-/

namespace CLSmith

namespace Common

/-- The widths of the exact-width integer types, from one byte to eight. -/
inductive Width
  | w8 | w16 | w32 | w64
deriving DecidableEq, Repr

namespace Width

/-- The number of bits. -/
def bits : Width → ℕ
  | w8 => 8
  | w16 => 16
  | w32 => 32
  | w64 => 64

/-- Narrower than `int`. -/
def Narrow (w : Width) : Prop := w = w8 ∨ w = w16

instance (w : Width) : Decidable w.Narrow := inferInstanceAs (Decidable (w = w8 ∨ w = w16))

end Width

/-- **An integer type**: its signedness and its width. Both are data, so that one
definition of an operator does for all the types. -/
structure IntTy where
  signed : Bool
  width : Width
deriving DecidableEq, Repr

namespace IntTy

/-- The type of arithmetic on anything narrower. -/
def int : IntTy := ⟨true, .w32⟩

/-- `unsigned int`. -/
def unsigned : IntTy := ⟨false, .w32⟩

variable (t : IntTy)

def bits : ℕ := t.width.bits

/-- The number of values of the type. -/
def card : ℤ := 2 ^ t.bits

/-- The least value. -/
def minVal : ℤ := if t.signed then -2 ^ (t.bits - 1) else 0

/-- The greatest value. -/
def maxVal : ℤ := t.minVal + t.card - 1

/-- The type represents the value. -/
def InRange (v : ℤ) : Prop := t.minVal ≤ v ∧ v ≤ t.maxVal

instance (v : ℤ) : Decidable (t.InRange v) :=
  inferInstanceAs (Decidable (t.minVal ≤ v ∧ v ≤ t.maxVal))

/-- The value of the type equal to `v` modulo its cardinality. -/
def wrap (v : ℤ) : ℤ := (v - t.minVal) % t.card + t.minVal

/-- The values of the type. -/
def Value : Type := {v : ℤ // t.InRange v}

instance : CoeOut t.Value ℤ := ⟨Subtype.val⟩

/-- Integer promotion: what `int` can represent becomes `int`. -/
def promote : IntTy := if t.width.Narrow then int else t

/-- The usual arithmetic conversions, on the promoted types: the wider of
two widths, and unsigned where two types of one width differ. -/
def common (s t : IntTy) : IntTy :=
  if s.promote.width = t.promote.width then
    ⟨s.promote.signed && t.promote.signed, s.promote.width⟩
  else if s.promote.width = .w64 then s.promote
  else t.promote

variable {t} {v : ℤ}

theorem card_pos : 0 < t.card := Int.pow_pos (by decide)

theorem wrap_inRange (v : ℤ) : t.InRange (t.wrap v) := by
  have h₀ := Int.emod_nonneg (v - t.minVal) t.card_pos.ne'
  have h₁ := Int.emod_lt_of_pos (v - t.minVal) t.card_pos
  unfold InRange maxVal wrap
  omega

@[simp] theorem wrap_of_inRange (h : t.InRange v) : t.wrap v = v := by
  unfold InRange maxVal at h
  unfold wrap
  rw [Int.emod_eq_of_lt (by omega) (by omega)]
  omega

theorem wrap_unsigned (h : t.signed = false) (v : ℤ) : t.wrap v = v % t.card := by
  simp [wrap, minVal, h]

theorem minVal_signed (h : t.signed = true) : t.minVal = -(t.maxVal + 1) := by
  obtain ⟨s, w⟩ := t
  obtain rfl : s = true := h
  cases w <;> rfl

theorem maxVal_pos : 0 < t.maxVal := by
  obtain ⟨s, w⟩ := t
  cases s <;> cases w <;> decide

theorem minVal_nonpos : t.minVal ≤ 0 := by
  obtain ⟨s, w⟩ := t
  cases s <;> cases w <;> decide

theorem minVal_unsigned (h : t.signed = false) : t.minVal = 0 := by simp [minVal, h]

@[simp] theorem promote_promote : t.promote.promote = t.promote := by
  obtain ⟨s, w⟩ := t
  cases s <;> cases w <;> rfl

/-- Promotion keeps every value. -/
theorem InRange.promote (h : t.InRange v) : t.promote.InRange v := by
  obtain ⟨s, w⟩ := t
  obtain ⟨h₀, h₁⟩ := h
  have hmin : IntTy.minVal (IntTy.promote ⟨s, w⟩) ≤ IntTy.minVal ⟨s, w⟩ := by
    cases s <;> cases w <;> decide
  have hmax : IntTy.maxVal ⟨s, w⟩ ≤ IntTy.maxVal (IntTy.promote ⟨s, w⟩) := by
    cases s <;> cases w <;> decide
  exact ⟨hmin.trans h₀, h₁.trans hmax⟩

theorem signed_promote (h : t.signed = true) : t.promote.signed = true := by
  obtain ⟨s, w⟩ := t
  obtain rfl : s = true := h
  cases w <;> rfl

theorem common_int : common t int = t.promote := by
  obtain ⟨s, w⟩ := t
  cases s <;> cases w <;> rfl

theorem common_promote : common t t.promote = t.promote := by
  obtain ⟨s, w⟩ := t
  cases s <;> cases w <;> rfl

theorem common_promote_left (s t : IntTy) : common s.promote t = common s t := by
  unfold common
  rw [promote_promote]

theorem common_comm (s t : IntTy) : common s t = common t s := by
  unfold common
  by_cases h : s.promote.width = t.promote.width
  · rw [if_pos h, if_pos h.symm, Bool.and_comm, h]
  · rw [if_neg h, if_neg (Ne.symm h)]
    obtain ⟨s, w⟩ := s
    obtain ⟨u, w'⟩ := t
    revert h
    cases s <;> cases w <;> cases u <;> cases w' <;> decide

theorem common_eq {s t p : IntTy} (hs : s.promote = p) (ht : t.promote = p) :
    common s t = p := by
  unfold common
  rw [hs, ht]
  simp

end IntTy

/-- What an evaluation can do that C leaves undefined. -/
inductive UB
  | overflow | divByZero | shiftCount
deriving DecidableEq, Repr

/-- **An expression**: its static type, and a value of that type or
undefined behaviour. -/
structure Expr where
  ty : IntTy
  eval : Except UB ℤ
  inRange : ∀ v, eval = .ok v → ty.InRange v

namespace IntTy

variable (t : IntTy)

/-- The expression of type `t` with the value an evaluation yields, in `t`. -/
def expr (e : Except UB ℤ) : Expr where
  ty := t
  eval := e.map t.wrap
  inRange := by
    intro v h
    cases e with
    | error u => cases h
    | ok x => cases h; exact wrap_inRange x

/-- The result of an arithmetic operation: undefined where a signed type
does not represent it. -/
def check (v : ℤ) : Except UB ℤ :=
  if t.signed ∧ ¬ t.InRange v then .error .overflow else .ok v

/-- A value as the type's bit pattern. -/
def toBits (v : ℤ) : BitVec t.bits := BitVec.ofInt t.bits v

/-! ### Bit patterns of signed types -/

variable {t : IntTy} {v x y : ℤ}

theorem bits_pos : 0 < t.bits := by
  obtain ⟨s, w⟩ := t
  cases s <;> cases w <;> decide

theorem inRange_signed (h : t.signed = true) :
    t.InRange v ↔ -2 ^ (t.bits - 1) ≤ v ∧ v < 2 ^ (t.bits - 1) := by
  have hmin : t.minVal = -2 ^ (t.bits - 1) := by simp [minVal, h]
  have hmax : t.maxVal = 2 ^ (t.bits - 1) - 1 := by
    have := t.minVal_signed h
    omega
  unfold InRange
  omega

theorem toBits_wrap (v : ℤ) : t.toBits (t.wrap v) = t.toBits v := by
  have h : t.wrap v % 2 ^ t.bits = v % 2 ^ t.bits := by
    show ((v - t.minVal) % 2 ^ t.bits + t.minVal) % 2 ^ t.bits = _
    rw [Int.emod_add_emod, sub_add_cancel]
  apply BitVec.eq_of_toNat_eq
  simp only [toBits, BitVec.toNat_ofInt]
  push_cast
  rw [h]

@[simp] theorem toBits_toInt (b : BitVec t.bits) : t.toBits b.toInt = b := BitVec.ofInt_toInt

theorem toInt_toBits (hs : t.signed = true) (h : t.InRange v) : (t.toBits v).toInt = v :=
  have hv := (inRange_signed hs).mp h
  BitVec.toInt_ofInt_eq_self t.bits_pos hv.1 hv.2

theorem toInt_inRange (hs : t.signed = true) (b : BitVec t.bits) : t.InRange b.toInt := by
  rw [inRange_signed hs]
  have h₀ := BitVec.le_toInt b
  have h₁ := BitVec.toInt_lt (x := b)
  exact ⟨h₀, h₁⟩

/-- A bit above the magnitude is the sign. -/
theorem getLsbD_toBits {k : ℕ} (hk : k < t.bits) (h₀ : -2 ^ k ≤ v) (h₁ : v < 2 ^ k) :
    (t.toBits v).getLsbD k = decide (v < 0) := by
  have hpow : (2 : ℤ) ^ k < 2 ^ t.bits := by
    exact_mod_cast Nat.pow_lt_pow_right (by decide) hk
  show (BitVec.ofInt t.bits v).toNat.testBit k = _
  rw [BitVec.toNat_ofInt]
  push_cast
  by_cases hv : v < 0
  · have hm : ((-v - 1).toNat : ℤ) = -v - 1 := Int.toNat_of_nonneg (by omega)
    have hlt : (-v - 1).toNat < 2 ^ k := by zify; omega
    have hlt' : (-v - 1).toNat < 2 ^ t.bits :=
      hlt.trans (Nat.pow_lt_pow_right (by decide) hk)
    have he : (v % 2 ^ t.bits).toNat = 2 ^ t.bits - ((-v - 1).toNat + 1) := by
      have : v % 2 ^ t.bits = v + 2 ^ t.bits := by
        rw [← Int.add_emod_right, Int.emod_eq_of_lt (by omega) (by omega)]
      zify [show (-v - 1).toNat + 1 ≤ 2 ^ t.bits from hlt']
      rw [this, Int.toNat_of_nonneg (by omega)]
      omega
    rw [he, Nat.testBit_two_pow_sub_succ hlt', Nat.testBit_lt_two_pow hlt]
    simp [hk, hv]
  · have hlt : (v % 2 ^ t.bits).toNat < 2 ^ k := by
      rw [Int.emod_eq_of_lt (by omega) (by omega)]
      zify
      omega
    rw [Nat.testBit_lt_two_pow hlt]
    simp [hv]

/-- Flipping bit `k` where `X` and `Y` differ in it adds or subtracts `2 ^ k`. -/
theorem xor_mask {n : ℕ} (X Y : BitVec n) {k : ℕ} (hk : k < n) :
    X ^^^ ((X ^^^ Y) &&& BitVec.twoPow n k) =
      if X.getLsbD k = Y.getLsbD k then X
      else if X.getLsbD k then X - BitVec.twoPow n k else X + BitVec.twoPow n k := by
  rw [BitVec.and_twoPow, BitVec.getLsbD_xor]
  have hadd : ∀ Z : BitVec n, Z.getLsbD k = false →
      Z ^^^ BitVec.twoPow n k = Z + BitVec.twoPow n k := by
    intro Z hZ
    have hand : Z &&& BitVec.twoPow n k = 0#n := by
      rw [BitVec.and_twoPow]
      simp [hZ]
    rw [BitVec.add_eq_or_of_and_eq_zero _ _ hand]
    apply BitVec.eq_of_getLsbD_eq
    intro i hi
    have := congrArg (fun z : BitVec n => z.getLsbD i) hand
    simp only [BitVec.getLsbD_and, BitVec.getLsbD_zero] at this
    simp only [BitVec.getLsbD_xor, BitVec.getLsbD_or]
    revert this
    cases Z.getLsbD i <;> cases (BitVec.twoPow n k).getLsbD i <;> simp
  cases hX : X.getLsbD k <;> cases hY : Y.getLsbD k
  · simp
  · simpa using hadd X hX
  · have hZ : (X ^^^ BitVec.twoPow n k).getLsbD k = false := by
      simp [hX, hk]
    have := hadd _ hZ
    rw [BitVec.xor_assoc, BitVec.xor_self, BitVec.xor_zero] at this
    simp only [Bool.true_xor, Bool.not_false, if_true]
    rw [if_neg (by simp)]
    exact (BitVec.eq_sub_iff_add_eq).mpr this.symm
  · simp

theorem toInt_neg_iff {n : ℕ} (X : BitVec n) : X.toInt < 0 ↔ X.msb = true := by
  rw [BitVec.msb_eq_toInt, decide_eq_true_iff]

theorem toInt_xor_neg {n : ℕ} (X Y : BitVec n) :
    (X ^^^ Y).toInt < 0 ↔ ¬ (X.toInt < 0 ↔ Y.toInt < 0) := by
  rw [toInt_neg_iff, toInt_neg_iff, toInt_neg_iff, BitVec.msb_xor]
  cases X.msb <;> cases Y.msb <;> decide

theorem toInt_and_neg {n : ℕ} (X Y : BitVec n) :
    (X &&& Y).toInt < 0 ↔ X.toInt < 0 ∧ Y.toInt < 0 := by
  rw [toInt_neg_iff, toInt_neg_iff, toInt_neg_iff, BitVec.msb_and]
  cases X.msb <;> cases Y.msb <;> decide

theorem toBits_add (x y : ℤ) : t.toBits (x + y) = t.toBits x + t.toBits y :=
  BitVec.ofInt_add x y

theorem toBits_sub (x y : ℤ) : t.toBits (x - y) = t.toBits x - t.toBits y := by
  rw [BitVec.eq_sub_iff_add_eq, ← toBits_add, sub_add_cancel]

theorem toBits_two_pow (k : ℕ) : t.toBits (2 ^ k) = BitVec.twoPow t.bits k := by
  have h : t.toBits (2 ^ k) = BitVec.ofNat t.bits (2 ^ k) := by
    rw [← BitVec.ofInt_natCast]
    push_cast
    rfl
  rw [h]
  apply BitVec.eq_of_toNat_eq
  rw [BitVec.toNat_ofNat, BitVec.toNat_twoPow]

/-- Flipping the sign bit of `x` where `y` has the other sign, with the mask
`m` any value of that bit pattern. -/
theorem toInt_flip {k : ℕ} {m : ℤ} (hs : t.signed = true) (hk : k < t.bits)
    (hm : t.toBits m = BitVec.twoPow t.bits k) (hx : -2 ^ k ≤ x ∧ x < 2 ^ k)
    (hy : -2 ^ k ≤ y ∧ y < 2 ^ k) (hadd : ¬ x < 0 → t.InRange (x + m))
    (hsub : x < 0 → t.InRange (x - m)) (hv : t.InRange x) :
    (t.toBits x ^^^ ((t.toBits x ^^^ t.toBits y) &&& t.toBits m)).toInt =
      if x < 0 ↔ y < 0 then x else if x < 0 then x - m else x + m := by
  rw [hm, xor_mask _ _ hk, getLsbD_toBits hk hx.1 hx.2, getLsbD_toBits hk hy.1 hy.2, ← hm,
    ← toBits_add, ← toBits_sub]
  by_cases h : x < 0 ↔ y < 0
  · rw [if_pos (by simp [h]), if_pos h, toInt_toBits hs hv]
  · rw [if_neg (by simpa using h), if_neg h]
    by_cases h' : x < 0
    · rw [if_pos (by simpa using h'), if_pos h', toInt_toBits hs (hsub h')]
    · rw [if_neg (by simpa using h'), if_neg h', toInt_toBits hs (hadd h')]

end IntTy

namespace Expr

open IntTy

/-- A literal, or the content of a variable, of type `t`. -/
def lit (t : IntTy) (v : ℤ) : Expr := t.expr (.ok v)

/-- `(t)(e)`. -/
def cast (t : IntTy) (e : Expr) : Expr := t.expr e.eval

/-- A binary operator: both operands in their common type. -/
def binary (f : IntTy → ℤ → ℤ → Except UB ℤ) (a b : Expr) : Expr :=
  let t := common a.ty b.ty
  t.expr (a.eval.bind fun x => b.eval.bind fun y => f t (t.wrap x) (t.wrap y))

/-- An arithmetic operator, given by its exact result. -/
def arith (f : ℤ → ℤ → ℤ) : Expr → Expr → Expr := binary fun t x y => t.check (f x y)

instance : Add Expr := ⟨arith (· + ·)⟩

instance : Sub Expr := ⟨arith (· - ·)⟩

instance : Mul Expr := ⟨arith (· * ·)⟩

instance : Div Expr :=
  ⟨binary fun t x y => if y = 0 then .error .divByZero else t.check (x.tdiv y)⟩

/-- A remainder is undefined with its quotient. -/
instance : Mod Expr :=
  ⟨binary fun t x y => if y = 0 then .error .divByZero
    else (t.check (x.tdiv y)).bind fun _ => .ok (x.tmod y)⟩

instance : XorOp Expr := ⟨binary fun t x y => .ok (t.toBits x ^^^ t.toBits y).toInt⟩

instance : AndOp Expr := ⟨binary fun t x y => .ok (t.toBits x &&& t.toBits y).toInt⟩

instance : Neg Expr := ⟨fun a =>
  a.ty.promote.expr (a.eval.bind fun x => a.ty.promote.check (-a.ty.promote.wrap x))⟩

/-- `~a`. -/
def compl (a : Expr) : Expr := a.ty.promote.expr (a.eval.bind fun x => .ok (-x - 1))

/-- A shift, of the promoted left operand; the count keeps its own type. -/
def shift (f : IntTy → ℤ → ℕ → Except UB ℤ) (a b : Expr) : Expr :=
  let t := a.ty.promote
  t.expr (a.eval.bind fun x => b.eval.bind fun y =>
    if 0 ≤ y ∧ y < t.bits then f t x y.toNat else .error .shiftCount)

instance : ShiftLeft Expr :=
  ⟨shift fun t x n => if x < 0 then .error .overflow else t.check (x * 2 ^ n)⟩

instance : ShiftRight Expr := ⟨shift fun _ x n => .ok (x / 2 ^ n)⟩

/-- `a << b` taken as a bit pattern. -/
def shlBits : Expr → Expr → Expr := shift fun _ x n => .ok (x * 2 ^ n)

/-- The value of a condition, an `int`. -/
def truth (p : Prop) [Decidable p] : ℤ := if p then 1 else 0

/-- A comparison: both operands in their common type, the result an `int`. -/
def compare (r : ℤ → ℤ → Prop) [DecidableRel r] (a b : Expr) : Expr :=
  let t := common a.ty b.ty
  int.expr (a.eval.bind fun x => b.eval.bind fun y => .ok (truth (r (t.wrap x) (t.wrap y))))

def lt : Expr → Expr → Expr := compare (· < ·)

def gt : Expr → Expr → Expr := compare (· > ·)

def le : Expr → Expr → Expr := compare (· ≤ ·)

def ge : Expr → Expr → Expr := compare (· ≥ ·)

def eq : Expr → Expr → Expr := compare (· = ·)

def ne : Expr → Expr → Expr := compare (· ≠ ·)

/-- `a && b`; the right operand is evaluated where the left one holds. -/
def land (a b : Expr) : Expr :=
  int.expr (a.eval.bind fun x => if x = 0 then .ok 0
    else b.eval.bind fun y => .ok (truth (y ≠ 0)))

/-- `a || b`; the right operand is evaluated where the left one fails. -/
def lor (a b : Expr) : Expr :=
  int.expr (a.eval.bind fun x => if x ≠ 0 then .ok 1
    else b.eval.bind fun y => .ok (truth (y ≠ 0)))

/-- `c ? a : b`, of the common type of its branches. -/
def cond (c a b : Expr) : Expr :=
  (common a.ty b.ty).expr (c.eval.bind fun x => if x ≠ 0 then a.eval else b.eval)

/-! ## Rules -/

/-- The expression evaluates to `v`. -/
def Returns (e : Expr) (v : ℤ) : Prop := e.eval = .ok v

/-- The expression evaluates, to a nonzero value exactly where `p` holds. -/
def Decides (e : Expr) (p : Prop) : Prop := ∃ v, e.Returns v ∧ (v ≠ 0 ↔ p)

/-- The evaluation meets nothing undefined. -/
def Defined (e : Expr) : Prop := ∃ v, e.Returns v

variable {a b c e : Expr} {x y v : ℤ} {p q : Prop} {s t : IntTy}

theorem Returns.unique (h : e.Returns x) (h' : e.Returns y) : x = y :=
  Except.ok.inj (h.symm.trans h')

theorem Returns.inRange (h : e.Returns v) : e.ty.InRange v := Expr.inRange e v h

@[simp] theorem ty_sub : (a - b).ty = common a.ty b.ty := rfl

@[simp] theorem ty_div : (a / b).ty = common a.ty b.ty := rfl

@[simp] theorem ty_mod : (a % b).ty = common a.ty b.ty := rfl

@[simp] theorem ty_xor : (a ^^^ b).ty = common a.ty b.ty := rfl

@[simp] theorem ty_and : (a &&& b).ty = common a.ty b.ty := rfl

@[simp] theorem ty_neg : (-a).ty = a.ty.promote := rfl

@[simp] theorem ty_compl : (compl a).ty = a.ty.promote := rfl

@[simp] theorem ty_shl : (a <<< b).ty = a.ty.promote := rfl

@[simp] theorem ty_shr : (a >>> b).ty = a.ty.promote := rfl

theorem Returns.lit_wrap (t : IntTy) (v : ℤ) : (lit t v).Returns (t.wrap v) := rfl

theorem Returns.lit (h : t.InRange v) : (lit t v).Returns v := by
  show Except.ok (t.wrap v) = _
  rw [wrap_of_inRange h]

theorem Returns.cast_wrap (h : e.Returns v) : (cast t e).Returns (t.wrap v) := by
  show e.eval.map t.wrap = _
  rw [h]
  rfl

theorem Returns.cast (h : e.Returns v) (hv : t.InRange v) : (cast t e).Returns v := by
  have hw := h.cast_wrap (t := t)
  rwa [wrap_of_inRange hv] at hw

theorem check_of_inRange (h : t.InRange v) : t.check v = .ok v := by simp [check, h]

theorem check_unsigned (h : t.signed = false) (v : ℤ) : t.check v = .ok v := by
  simp [check, h]

section Binary

variable (ha : a.Returns x) (hb : b.Returns y) (has : a.ty.promote = t)
  (hbs : b.ty.promote = t)
include ha hb has hbs

/-- A binary operator on operands of one promoted type converts neither. -/
theorem Returns.binary {f : IntTy → ℤ → ℤ → Except UB ℤ} (hf : f t x y = .ok v) :
    (binary f a b).Returns (t.wrap v) := by
  have hx : t.InRange x := has ▸ ha.inRange.promote
  have hy : t.InRange y := hbs ▸ hb.inRange.promote
  show Except.map (common a.ty b.ty).wrap (a.eval.bind fun x => b.eval.bind fun y =>
    f (common a.ty b.ty) ((common a.ty b.ty).wrap x) ((common a.ty b.ty).wrap y)) = _
  rw [common_eq has hbs, ha, hb]
  show Except.map t.wrap (f t (t.wrap x) (t.wrap y)) = _
  rw [wrap_of_inRange hx, wrap_of_inRange hy, hf]
  rfl

/-- Signed or not, an arithmetic operator is exact where its result fits. -/
theorem Returns.arith {f : ℤ → ℤ → ℤ} (h : t.InRange (f x y)) :
    (arith f a b).Returns (f x y) := by
  have hr := ha.binary hb has hbs (f := fun t x y => t.check (f x y)) (check_of_inRange h)
  rwa [wrap_of_inRange h] at hr

/-- An unsigned arithmetic operator reduces its exact result. -/
theorem Returns.arith_wrap {f : ℤ → ℤ → ℤ} (ht : t.signed = false) :
    (Expr.arith f a b).Returns (t.wrap (f x y)) :=
  ha.binary hb has hbs (f := fun t x y => t.check (f x y)) (check_unsigned ht _)

theorem Returns.add (h : t.InRange (x + y)) : (a + b).Returns (x + y) :=
  ha.arith hb has hbs (f := (· + ·)) h

theorem Returns.sub (h : t.InRange (x - y)) : (a - b).Returns (x - y) :=
  ha.arith hb has hbs (f := (· - ·)) h

theorem Returns.mul (h : t.InRange (x * y)) : (a * b).Returns (x * y) :=
  ha.arith hb has hbs (f := (· * ·)) h

theorem Returns.div (hy : y ≠ 0) (h : t.InRange (x.tdiv y)) : (a / b).Returns (x.tdiv y) := by
  have hr := ha.binary hb has hbs (v := x.tdiv y)
    (f := fun t x y => if y = 0 then .error .divByZero else t.check (x.tdiv y))
    (by rw [if_neg hy, check_of_inRange h])
  rwa [wrap_of_inRange h] at hr

theorem Returns.mod (hy : y ≠ 0) (h : t.InRange (x.tdiv y)) (hm : t.InRange (x.tmod y)) :
    (a % b).Returns (x.tmod y) := by
  have hr := ha.binary hb has hbs (v := x.tmod y)
    (f := fun t x y => if y = 0 then .error .divByZero
      else (t.check (x.tdiv y)).bind fun _ => .ok (x.tmod y))
    (by rw [if_neg hy, check_of_inRange h]; rfl)
  rwa [wrap_of_inRange hm] at hr

theorem Returns.xor (ht : t.signed = true) :
    (a ^^^ b).Returns (t.toBits x ^^^ t.toBits y).toInt := by
  have hr := ha.binary hb has hbs (f := fun t x y => .ok (t.toBits x ^^^ t.toBits y).toInt) rfl
  rwa [wrap_of_inRange (toInt_inRange ht _)] at hr

theorem Returns.and (ht : t.signed = true) :
    (a &&& b).Returns (t.toBits x &&& t.toBits y).toInt := by
  have hr := ha.binary hb has hbs (f := fun t x y => .ok (t.toBits x &&& t.toBits y).toInt) rfl
  rwa [wrap_of_inRange (toInt_inRange ht _)] at hr

end Binary

/-- An arithmetic operator is exact where the common type of its operands
represents them and the result. -/
theorem Returns.arith_common {f : ℤ → ℤ → ℤ} (ha : a.Returns x) (hb : b.Returns y)
    (ht : common a.ty b.ty = t) (hx : t.InRange x) (hy : t.InRange y) (h : t.InRange (f x y)) :
    (Expr.arith f a b).Returns (f x y) := by
  show Except.map (common a.ty b.ty).wrap (a.eval.bind fun x => b.eval.bind fun y =>
    (common a.ty b.ty).check (f ((common a.ty b.ty).wrap x) ((common a.ty b.ty).wrap y))) = _
  rw [ht, ha, hb]
  show Except.map t.wrap (t.check (f (t.wrap x) (t.wrap y))) = _
  rw [wrap_of_inRange hx, wrap_of_inRange hy, check_of_inRange h]
  show Except.ok (t.wrap (f x y)) = _
  rw [wrap_of_inRange h]

/-- A comparison compares the operands as converted. -/
theorem Decides.compare_wrap {r : ℤ → ℤ → Prop} [DecidableRel r] (ha : a.Returns x)
    (hb : b.Returns y) (ht : common a.ty b.ty = t) :
    (Expr.compare r a b).Decides (r (t.wrap x) (t.wrap y)) := by
  refine ⟨int.wrap (truth (r (t.wrap x) (t.wrap y))), ?_, ?_⟩
  · show Except.map int.wrap (a.eval.bind fun x => b.eval.bind fun y =>
      .ok (truth (r ((common a.ty b.ty).wrap x) ((common a.ty b.ty).wrap y)))) = _
    rw [ht, ha, hb]
    rfl
  · unfold truth
    split <;> simp_all <;> decide

/-- Operands the common type represents are compared as they are. -/
theorem Decides.compare {r : ℤ → ℤ → Prop} [DecidableRel r] (ha : a.Returns x)
    (hb : b.Returns y) (ht : common a.ty b.ty = t) (hx : t.InRange x) (hy : t.InRange y) :
    (Expr.compare r a b).Decides (r x y) := by
  have h := Decides.compare_wrap (r := r) ha hb ht
  rwa [wrap_of_inRange hx, wrap_of_inRange hy] at h

/-- A condition as a truth value. -/
theorem Decides.eval_toOption (h : e.Decides p) :
    ∃ b : Bool, e.eval.toOption.map (fun v => decide (v ≠ 0)) = some b ∧ (b = true ↔ p) := by
  obtain ⟨v, hv, hp⟩ := h
  refine ⟨decide (v ≠ 0), ?_, ?_⟩
  · rw [hv]
    rfl
  · rw [decide_eq_true_iff, hp]

theorem Decides.congr (h : e.Decides p) (hpq : p ↔ q) : e.Decides q := by
  obtain ⟨v, hv, hp⟩ := h
  exact ⟨v, hv, hp.trans hpq⟩

theorem Decides.land (ha : a.Decides p) (hb : p → b.Decides q) :
    (land a b).Decides (p ∧ q) := by
  obtain ⟨x, hx, hp⟩ := ha
  by_cases h : p
  · obtain ⟨y, hy, hq⟩ := hb h
    refine ⟨int.wrap (truth (y ≠ 0)), ?_, ?_⟩
    · show Except.map int.wrap (a.eval.bind fun x => if x = 0 then .ok 0
        else b.eval.bind fun y => .ok (truth (y ≠ 0))) = _
      rw [hx, hy]
      show Except.map int.wrap (if x = 0 then .ok 0 else .ok (truth (y ≠ 0))) = _
      rw [if_neg (hp.mpr h)]
      rfl
    · unfold truth
      split <;> simp_all <;> decide
  · refine ⟨int.wrap 0, ?_, ?_⟩
    · show Except.map int.wrap (a.eval.bind fun x => if x = 0 then .ok 0
        else b.eval.bind fun y => .ok (truth (y ≠ 0))) = _
      rw [hx]
      show Except.map int.wrap (if x = 0 then .ok 0
        else b.eval.bind fun y => .ok (truth (y ≠ 0))) = _
      rw [if_pos (by simpa [h] using hp)]
      rfl
    · simpa [h] using (by decide : int.wrap 0 = 0)

theorem Decides.lor (ha : a.Decides p) (hb : ¬ p → b.Decides q) :
    (lor a b).Decides (p ∨ q) := by
  obtain ⟨x, hx, hp⟩ := ha
  by_cases h : p
  · refine ⟨int.wrap 1, ?_, ?_⟩
    · show Except.map int.wrap (a.eval.bind fun x => if x ≠ 0 then .ok 1
        else b.eval.bind fun y => .ok (truth (y ≠ 0))) = _
      rw [hx]
      show Except.map int.wrap (if x ≠ 0 then .ok 1
        else b.eval.bind fun y => .ok (truth (y ≠ 0))) = _
      rw [if_pos (hp.mpr h)]
      rfl
    · simpa [h] using (by decide : int.wrap 1 ≠ 0)
  · obtain ⟨y, hy, hq⟩ := hb h
    refine ⟨int.wrap (truth (y ≠ 0)), ?_, ?_⟩
    · show Except.map int.wrap (a.eval.bind fun x => if x ≠ 0 then .ok 1
        else b.eval.bind fun y => .ok (truth (y ≠ 0))) = _
      rw [hx, hy]
      show Except.map int.wrap (if x ≠ 0 then .ok 1 else .ok (truth (y ≠ 0))) = _
      rw [if_neg (by simpa [h] using hp)]
      rfl
    · unfold truth
      split <;> simp_all <;> decide

/-- A conditional returns what the branch its condition selects returns. -/
theorem Returns.cond (hc : c.Decides p) (has : a.ty.promote = t) (hbs : b.ty.promote = t)
    (ha : p → a.Returns v) (hb : ¬ p → b.Returns v) : (cond c a b).Returns v := by
  obtain ⟨x, hx, hp⟩ := hc
  show Except.map (common a.ty b.ty).wrap
    (c.eval.bind fun x => if x ≠ 0 then a.eval else b.eval) = _
  rw [common_eq has hbs, hx]
  show Except.map t.wrap (if x ≠ 0 then a.eval else b.eval) = _
  by_cases h : p
  · have hv : t.InRange v := has ▸ (ha h).inRange.promote
    rw [if_pos (hp.mpr h), ha h]
    show Except.ok (t.wrap v) = _
    rw [wrap_of_inRange hv]
  · have hv : t.InRange v := hbs ▸ (hb h).inRange.promote
    rw [if_neg (by simpa [h] using hp), hb h]
    show Except.ok (t.wrap v) = _
    rw [wrap_of_inRange hv]

theorem Returns.defined (h : e.Returns v) : e.Defined := ⟨v, h⟩

theorem defined_expr {r : Except UB ℤ} : (t.expr r).Defined ↔ ∃ v, r = .ok v := by
  unfold Defined Returns IntTy.expr
  cases r with
  | error u => simp [Except.map]
  | ok v => simp [Except.map]

/-- A conditional is defined where the branch its condition selects is. -/
theorem defined_cond (hc : c.Decides p) :
    (cond c a b).Defined ↔ (p → a.Defined) ∧ (¬ p → b.Defined) := by
  obtain ⟨x, hx, hp⟩ := hc
  unfold cond
  rw [defined_expr, hx, ← hp]
  show (∃ v, (if x ≠ 0 then a.eval else b.eval) = .ok v) ↔ _
  unfold Defined Returns
  by_cases h : x = 0 <;> simp [h]

section Unary

variable (ha : a.Returns x) (has : a.ty.promote = t)
include ha has

theorem Returns.neg (h : t.InRange (-x)) : (-a).Returns (-x) := by
  have hx : t.InRange x := has ▸ ha.inRange.promote
  show Except.map a.ty.promote.wrap
    (a.eval.bind fun x => a.ty.promote.check (-a.ty.promote.wrap x)) = _
  rw [has, ha]
  show Except.map t.wrap (t.check (-t.wrap x)) = _
  rw [wrap_of_inRange hx, check_of_inRange h]
  show Except.ok (t.wrap (-x)) = _
  rw [wrap_of_inRange h]

theorem Returns.neg_wrap (ht : t.signed = false) : (-a).Returns (t.wrap (-x)) := by
  have hx : t.InRange x := has ▸ ha.inRange.promote
  show Except.map a.ty.promote.wrap
    (a.eval.bind fun x => a.ty.promote.check (-a.ty.promote.wrap x)) = _
  rw [has, ha]
  show Except.map t.wrap (t.check (-t.wrap x)) = _
  rw [wrap_of_inRange hx, check_unsigned ht]
  rfl

theorem Returns.compl : (compl a).Returns (t.wrap (-x - 1)) := by
  show Except.map a.ty.promote.wrap (a.eval.bind fun x => .ok (-x - 1)) = _
  rw [has, ha]
  rfl

variable {n : ℕ} (hb : b.Returns n) (hn : n < t.bits)
include hb hn

/-- A shift whose count is in range is the operation on the promoted operand. -/
theorem Returns.shift {f : IntTy → ℤ → ℕ → Except UB ℤ} (hf : f t x n = .ok v) :
    (shift f a b).Returns (t.wrap v) := by
  show Except.map a.ty.promote.wrap (a.eval.bind fun x => b.eval.bind fun y =>
    if 0 ≤ y ∧ y < a.ty.promote.bits then f a.ty.promote x y.toNat
      else .error .shiftCount) = _
  rw [has, ha, hb]
  show Except.map t.wrap (if 0 ≤ (n : ℤ) ∧ (n : ℤ) < t.bits then f t x (n : ℤ).toNat
    else .error .shiftCount) = _
  rw [if_pos (by omega), Int.toNat_natCast, hf]
  rfl

theorem Returns.shl (hx : 0 ≤ x) (h : t.InRange (x * 2 ^ n)) :
    (a <<< b).Returns (x * 2 ^ n) := by
  have hr := ha.shift has hb hn (v := x * 2 ^ n)
    (f := fun t x n => if x < 0 then .error .overflow else t.check (x * 2 ^ n))
    (by rw [if_neg (by omega), check_of_inRange h])
  rwa [wrap_of_inRange h] at hr

theorem Returns.shr (h : t.InRange (x / 2 ^ n)) : (a >>> b).Returns (x / 2 ^ n) := by
  have hr := ha.shift has hb hn (v := x / 2 ^ n) (f := fun _ x n => .ok (x / 2 ^ n)) rfl
  rwa [wrap_of_inRange h] at hr

theorem Returns.shlBits : (shlBits a b).Returns (t.wrap (x * 2 ^ n)) :=
  ha.shift has hb hn (f := fun _ x n => .ok (x * 2 ^ n)) rfl

end Unary

end Expr

end Common

end CLSmith
