import CLSmith.SafeMath.Values
/-!
# The safe built-in macros

`cl_safe_math_macros.m4`: the macros around `mul24`, `mad24`, `mad_hi` and
`clamp`. A built-in called outside the operands it is defined on is
undefined here, so a macro returns exactly where it keeps to them.
-/

namespace CLSmith

namespace SafeMath

open Common Expr

/-- `({ t tmp = e; body; })`. -/
def declare (t : IntTy) (e : Expr) (body : Expr → Expr) : Expr :=
  (body (lit t 0)).ty.expr (e.eval.bind fun v => (body (lit t v)).eval)

theorem defined_declare {t : IntTy} {e : Expr} {body : Expr → Expr} {u : ℤ}
    (he : e.Returns u) : (declare t e body).Defined ↔ (body (lit t u)).Defined := by
  unfold declare
  rw [defined_expr, he]
  exact Iff.rfl

/-! ## The built-in functions -/

namespace BuiltIn

/-- The operands `mul24` and `mad24` multiply. -/
def Range24 (t : IntTy) (x : ℤ) : Prop :=
  if t.signed then -2 ^ 23 ≤ x ∧ x ≤ 2 ^ 23 - 1 else 0 ≤ x ∧ x ≤ 2 ^ 24 - 1

instance (t : IntTy) (x : ℤ) : Decidable (Range24 t x) := by
  unfold Range24
  infer_instance

variable (t : IntTy)

/-- `mul24(a, b)`. -/
def mul24 (a b : Expr) : Expr :=
  t.expr (a.eval.bind fun x => b.eval.bind fun y =>
    if Range24 t x ∧ Range24 t y then t.check (x * y) else .error .overflow)

/-- `mad24(a, b, c)`, the sum of a `mul24` and `c`. -/
def mad24 (a b c : Expr) : Expr :=
  t.expr (a.eval.bind fun x => b.eval.bind fun y => c.eval.bind fun z =>
    if Range24 t x ∧ Range24 t y then (t.check (x * y)).bind fun p => t.check (p + z)
    else .error .overflow)

/-- `mul_hi(a, b)`, the high half of the product. -/
def mulHi (a b : Expr) : Expr :=
  t.expr (a.eval.bind fun x => b.eval.bind fun y => .ok (x * y / t.card))

/-- `mad_hi(a, b, c)`. -/
def madHi (a b c : Expr) : Expr :=
  t.expr (a.eval.bind fun x => b.eval.bind fun y => c.eval.bind fun z =>
    t.check (t.wrap (x * y / t.card) + z))

/-- `clamp(x, lo, hi)`. -/
def clamp (x lo hi : Expr) : Expr :=
  t.expr (x.eval.bind fun v => lo.eval.bind fun l => hi.eval.bind fun h =>
    if l ≤ h then .ok (min (max v l) h) else .error .overflow)

variable {t} {a b c : Expr} {x y z : ℤ}

theorem check_eq_ok {v : ℤ} (h : t.signed = true → t.InRange v) : t.check v = .ok v := by
  unfold IntTy.check
  rw [if_neg (by tauto)]

theorem check_ok {v : ℤ} : (∃ r, t.check v = .ok r) ↔ (t.signed = true → t.InRange v) := by
  refine ⟨?_, fun h => ⟨v, check_eq_ok h⟩⟩
  rintro ⟨r, hr⟩ hs
  by_contra hn
  unfold IntTy.check at hr
  rw [if_pos ⟨hs, hn⟩] at hr
  cases hr

section Operands

variable (ha : a.Returns x) (hb : b.Returns y)
include ha hb

theorem defined_mul24 : (mul24 t a b).Defined ↔
    (Range24 t x ∧ Range24 t y) ∧ (t.signed = true → t.InRange (x * y)) := by
  unfold mul24
  rw [defined_expr, ha, hb, ← check_ok]
  show (∃ r, (if Range24 t x ∧ Range24 t y then t.check (x * y) else .error .overflow) = .ok r) ↔ _
  by_cases h : Range24 t x ∧ Range24 t y <;> simp [h]

theorem mul24_returns (h : (mul24 t a b).Defined) :
    (mul24 t a b).Returns (t.wrap (x * y)) := by
  obtain ⟨h₁, h₂⟩ := (defined_mul24 ha hb).mp h
  show Except.map t.wrap (a.eval.bind fun x => b.eval.bind fun y =>
    if Range24 t x ∧ Range24 t y then t.check (x * y) else .error .overflow) = _
  rw [ha, hb]
  show Except.map t.wrap
    (if Range24 t x ∧ Range24 t y then t.check (x * y) else .error .overflow) = _
  rw [if_pos h₁, check_eq_ok h₂]
  rfl

theorem mulHi_returns : (mulHi t a b).Returns (t.wrap (x * y / t.card)) := by
  show Except.map t.wrap (a.eval.bind fun x => b.eval.bind fun y => .ok (x * y / t.card)) = _
  rw [ha, hb]
  rfl

variable (hc : c.Returns z)
include hc

theorem defined_mad24 : (mad24 t a b c).Defined ↔
    (Range24 t x ∧ Range24 t y) ∧
      (t.signed = true → t.InRange (x * y) ∧ t.InRange (x * y + z)) := by
  unfold mad24
  rw [defined_expr, ha, hb, hc]
  show (∃ r, (if Range24 t x ∧ Range24 t y then (t.check (x * y)).bind fun p => t.check (p + z)
    else .error .overflow) = .ok r) ↔ _
  by_cases h : Range24 t x ∧ Range24 t y
  · rw [if_pos h]
    by_cases hp : t.signed = true → t.InRange (x * y)
    · rw [check_eq_ok hp]
      show (∃ r, t.check (x * y + z) = .ok r) ↔ _
      rw [check_ok]
      tauto
    · have hov : t.check (x * y) = .error .overflow := if_pos (by tauto)
      rw [hov]
      show (∃ r, Except.error UB.overflow = .ok r) ↔ _
      simp only [reduceCtorEq, exists_false, false_iff]
      tauto
  · simp [h]

theorem defined_madHi : (madHi t a b c).Defined ↔
    (t.signed = true → t.InRange (t.wrap (x * y / t.card) + z)) := by
  unfold madHi
  rw [defined_expr, ha, hb, hc, ← check_ok]
  exact Iff.rfl

theorem defined_clamp : (clamp t a b c).Defined ↔ y ≤ z := by
  unfold clamp
  rw [defined_expr, ha, hb, hc]
  show (∃ r, (if y ≤ z then .ok (min (max x y) z) else .error UB.overflow) = Except.ok r) ↔ _
  by_cases h : y ≤ z <;> simp [h]

end Operands

end BuiltIn

/-! ## The macros -/

namespace Macro

/-- A multiplied operand lies outside `lo` to `hi`. -/
def outside (lo hi a b : Expr) : Expr :=
  lor (lor (lor (lt a lo) (gt a hi)) (lt b lo)) (gt b hi)

/-- `-(1<<23)`. -/
def min24 : Expr := -(lit .int 1 <<< lit .int 23)

/-- `(1<<23)-1`. -/
def max24 : Expr := (lit .int 1 <<< lit .int 23) - lit .int 1

/-- The guard of the signed products. -/
def mul24Guard (si1 si2 : Expr) : Expr :=
  let t := intT .w32
  let zero := cast t (lit .int 0)
  lor (lor (lor (lor
    (outside min24 max24 si1 si2)
    (land (land (gt si1 zero) (gt si2 zero)) (gt si1 (intMax .w32 / si2))))
    (land (land (gt si1 zero) (le si2 zero)) (lt si2 (intMin .w32 / si1))))
    (land (land (le si1 zero) (gt si2 zero)) (lt si1 (intMin .w32 / si2))))
    (land (land (land (le si1 zero) (le si2 zero)) (ne si1 zero)) (lt si2 (intMax .w32 / si1)))

def safeMul24FuncSS (_si1 _si2 : ℤ) : Expr :=
  let t := intT .w32
  let si1 := lit t _si1
  let si2 := lit t _si2
  cond (mul24Guard si1 si2)
    si1
    (BuiltIn.mul24 t si1 si2)

def safeMad24FuncSSS (_si1 _si2 _si3 : ℤ) : Expr :=
  let t := intT .w32
  let si1 := lit t _si1
  let si2 := lit t _si2
  let si3 := lit t _si3
  let zero := cast t (lit .int 0)
  cond (mul24Guard si1 si2)
    si1
    (declare t (BuiltIn.mul24 t si1 si2) fun tmp =>
      cond
        (lor (land (land (gt tmp zero) (gt si3 zero)) (gt tmp (intMax .w32 - si3)))
          (land (land (lt tmp zero) (lt si3 zero)) (lt tmp (intMin .w32 - si3))))
        si1
        (BuiltIn.mad24 t si1 si2 si3))

/-- The guard of the unsigned products; its upper bound is `1<<24`. -/
def umul24Guard (ui1 ui2 : Expr) : Expr :=
  outside (lit .int 0) (lit .int 1 <<< lit .int 24) ui1 ui2

def safeMul24FuncUU (_ui1 _ui2 : ℤ) : Expr :=
  let t := uintT .w32
  let ui1 := lit t _ui1
  let ui2 := lit t _ui2
  cond (umul24Guard ui1 ui2)
    ui1
    (BuiltIn.mul24 t ui1 ui2)

def safeMad24FuncUUU (_ui1 _ui2 _ui3 : ℤ) : Expr :=
  let t := uintT .w32
  let ui1 := lit t _ui1
  let ui2 := lit t _ui2
  let ui3 := lit t _ui3
  cond (umul24Guard ui1 ui2)
    ui1
    (BuiltIn.mad24 t ui1 ui2 ui3)

def safeMadHiFuncSSS (w : Width) (_si1 _si2 _si3 : ℤ) : Expr :=
  let t := intT w
  let si1 := lit t _si1
  let si2 := lit t _si2
  let si3 := lit t _si3
  let zero := cast t (lit .int 0)
  declare t (BuiltIn.mulHi t si1 si2) fun tmp =>
    cond
      (lor
        (land (land (gt tmp zero) (gt si3 zero)) (gt tmp (cast t (intMax w) - si3)))
        (land (land (lt tmp zero) (lt si3 zero)) (lt tmp (cast t (intMin w) - si3))))
      si1
      (BuiltIn.madHi t si1 si2 si3)

def safeClampFunc (_t1 _t2 : IntTy) (_x _y _z : ℤ) : Expr :=
  let x := lit _t1 _x
  let y := lit _t2 _y
  let z := lit _t2 _z
  cond (gt y z)
    x
    (BuiltIn.clamp _t1 x y z)

end Macro

/-! ## The guards -/

/-- Disjunction associates, evaluation order included. -/
theorem lor_assoc (a b c : Expr) : lor (lor a b) c = lor a (lor b c) := by
  have hzero : IntTy.int.wrap 0 = 0 := by decide
  have hone : IntTy.int.wrap 1 = 1 := by decide
  show IntTy.int.expr _ = IntTy.int.expr _
  congr 1
  unfold lor IntTy.expr
  cases a.eval with
  | error u => rfl
  | ok x =>
    by_cases hx : x = 0
    · cases b.eval with
      | error u => simp [hx, Except.bind, Except.map]
      | ok y =>
        -- the left operand's truth value is what the right one is tested against
        by_cases hy : y = 0
        · cases c.eval with
          | error u => simp [hx, hy, Except.bind, Except.map, truth, hzero]
          | ok z => by_cases hz : z = 0 <;>
              simp [hx, hy, hz, Except.bind, Except.map, truth, hzero, hone]
        · simp [hx, hy, Except.bind, Except.map, truth, hone]
    · simp [hx, Except.bind, Except.map, hone]

namespace Macro

variable {t : IntTy} {A B lo hi : Expr} {x y l h : ℤ}

theorem outside_decides (hA : A.Returns x) (hAt : A.ty = t) (hB : B.Returns y) (hBt : B.ty = t)
    (hlo : lo.Returns l) (hlot : lo.ty = .int) (hhi : hi.Returns h) (hhit : hi.ty = .int)
    (ht : t.promote = t) (hl : t.InRange l) (hh : t.InRange h) :
    (outside lo hi A B).Decides (((x < l ∨ x > h) ∨ y < l) ∨ y > h) := by
  have hc : ∀ {C D : Expr}, C.ty = t → D.ty = .int → IntTy.common C.ty D.ty = t := by
    intro C D hC hD
    rw [hC, hD, IntTy.common_int, ht]
  have hx := inRange_of hA hAt
  have hy := inRange_of hB hBt
  exact (((Decides.compare hA hlo (hc hAt hlot) hx hl).lor fun _ =>
    Decides.compare hA hhi (hc hAt hhit) hx hh).lor fun _ =>
    Decides.compare hB hlo (hc hBt hlot) hy hl).lor fun _ =>
    Decides.compare hB hhi (hc hBt hhit) hy hh

end Macro

/-- `1<<n`. -/
theorem bit_returns {n : ℕ} (hn : n < 31) : (lit .int 1 <<< lit .int n).Returns (2 ^ n) := by
  have hpow : (2 : ℤ) ^ n ≤ 2 ^ 30 := by
    exact_mod_cast Nat.pow_le_pow_right (by decide) (by omega : n ≤ 30)
  have hpos := Int.pow_pos (n := 2) (m := n) (by decide)
  have hint : IntTy.int.minVal = -2147483648 ∧ IntTy.int.maxVal = 2147483647 := by decide
  have hcount : (lit .int n).Returns n := .lit ⟨by omega, by omega⟩
  have hone : (lit .int 1).Returns 1 := .lit (by decide)
  have hr := hone.shl (t := .int) rfl hcount (show n < 32 by omega) (by decide)
    ⟨by rw [Int.one_mul]; omega, by rw [Int.one_mul]; omega⟩
  rwa [Int.one_mul] at hr

theorem min24_returns : Macro.min24.Returns (-2 ^ 23) :=
  (bit_returns (n := 23) (by decide)).neg (t := .int) rfl (by decide)

theorem max24_returns : Macro.max24.Returns (2 ^ 23 - 1) :=
  (bit_returns (n := 23) (by decide)).sub (.lit (by decide)) (t := .int) rfl rfl (by decide)

theorem macro_args_lit (t : IntTy) {x y : ℤ} (hx : t.InRange x) (hy : t.InRange y) :
    Args t (lit t x) (lit t y) (cast t (lit .int 0)) x y where
  left := .lit hx
  leftTy := rfl
  right := .lit hy
  rightTy := rfl
  zero := macro_zero t
  zeroTy := IntTy.common_eq rfl rfl

section Signed

variable {x y z : ℤ} (hx : (intT .w32).InRange x) (hy : (intT .w32).InRange y)
include hx hy

/-- The guard of the signed products refuses the operands `mul24` is not
defined on. -/
theorem mul24Guard_decides :
    (Macro.mul24Guard (lit (intT .w32) x) (lit (intT .w32) y)).Decides
      (¬ ((BuiltIn.Range24 (intT .w32) x ∧ BuiltIn.Range24 (intT .w32) y) ∧
        (intT .w32).InRange (x * y))) := by
  have hout := Macro.outside_decides (.lit hx) rfl (.lit hy) rfl min24_returns rfl
    max24_returns rfl (t := intT .w32) rfl (by decide) (by decide)
  have hmul := (macro_args_lit _ hx hy).mulGuard
  rw [lor_assoc, lor_assoc] at hmul
  unfold Macro.mul24Guard
  rw [lor_assoc, lor_assoc, lor_assoc]
  refine (hout.lor fun _ => hmul).congr ?_
  have h24 : ∀ v, BuiltIn.Range24 (intT .w32) v ↔ -2 ^ 23 ≤ v ∧ v ≤ 2 ^ 23 - 1 := fun v => Iff.rfl
  rw [h24, h24]
  by_cases hr : (intT .w32).InRange (x * y)
  · simp only [hr, not_true, or_false, and_true]
    omega
  · simp [hr]

theorem safeMul24FuncSS_defined : (Macro.safeMul24FuncSS x y).Defined := by
  refine (defined_cond (mul24Guard_decides hx hy)).mpr ⟨fun _ => (Returns.lit hx).defined, ?_⟩
  intro hk
  rw [not_not] at hk
  exact (BuiltIn.defined_mul24 (.lit hx) (.lit hy)).mpr ⟨hk.1, fun _ => hk.2⟩

theorem safeMad24FuncSSS_defined (hz : (intT .w32).InRange z) :
    (Macro.safeMad24FuncSSS x y z).Defined := by
  refine (defined_cond (mul24Guard_decides hx hy)).mpr ⟨fun _ => (Returns.lit hx).defined, ?_⟩
  intro hk
  rw [not_not] at hk
  have hmul := BuiltIn.mul24_returns (.lit hx) (.lit hy)
    ((BuiltIn.defined_mul24 (.lit hx) (.lit hy)).mpr ⟨hk.1, fun _ => hk.2⟩)
  rw [IntTy.wrap_of_inRange hk.2] at hmul
  refine (defined_declare hmul).mpr ?_
  -- with the product in `tmp`, the second guard is the one of a sum
  refine (defined_cond (macro_args_lit _ hk.2 hz).addGuard).mpr
    ⟨fun _ => (Returns.lit hx).defined, ?_⟩
  intro hs
  rw [not_not] at hs
  exact (BuiltIn.defined_mad24 (.lit hx) (.lit hy) (.lit hz)).mpr ⟨hk.1, fun _ => ⟨hk.2, hs⟩⟩

end Signed

theorem safeMadHiFuncSSS_defined (w : Width) {x y z : ℤ} (hx : (intT w).InRange x)
    (hy : (intT w).InRange y) (hz : (intT w).InRange z) :
    (Macro.safeMadHiFuncSSS w x y z).Defined := by
  refine (defined_declare (BuiltIn.mulHi_returns (.lit hx) (.lit hy))).mpr ?_
  have hargs := macro_args_lit (intT w) (IntTy.wrap_inRange (x * y / (intT w).card)) hz
  have hg := hargs.addGuard_limits ((intMax_returns w).cast inRange_maxVal) rfl
    ((intMin_returns w).cast inRange_minVal) rfl
  refine (defined_cond hg).mpr ⟨fun _ => (Returns.lit hx).defined, ?_⟩
  intro hs
  exact (BuiltIn.defined_madHi (.lit hx) (.lit hy) (.lit hz)).mpr fun _ => not_not.mp hs

theorem safeClampFunc_defined {t₁ t₂ : IntTy} {x y z : ℤ} (hx : t₁.InRange x)
    (hy : t₂.InRange y) (hz : t₂.InRange z) : (Macro.safeClampFunc t₁ t₂ x y z).Defined := by
  have hg : (gt (lit t₂ y) (lit t₂ z)).Decides (y > z) :=
    .compare (.lit hy) (.lit hz) (IntTy.common_eq rfl rfl) hy.promote hz.promote
  refine (defined_cond hg).mpr ⟨fun _ => (Returns.lit hx).defined, ?_⟩
  intro hle
  exact (BuiltIn.defined_clamp (.lit hx) (.lit hy) (.lit hz)).mpr (not_lt.mp hle)

/-! ## The unsigned products -/

/-- One factor is `2 ^ 24`, which the unsigned guard lets through. -/
def Slips (x y : ℤ) : Prop := (x ≤ 2 ^ 24 ∧ y ≤ 2 ^ 24) ∧ (x = 2 ^ 24 ∨ y = 2 ^ 24)

section Unsigned

variable {x y z : ℤ} (hx : (uintT .w32).InRange x) (hy : (uintT .w32).InRange y)
include hx hy

theorem umul24Guard_decides :
    (Macro.umul24Guard (lit (uintT .w32) x) (lit (uintT .w32) y)).Decides
      (x > 2 ^ 24 ∨ y > 2 ^ 24) := by
  have hout := Macro.outside_decides (.lit hx) rfl (.lit hy) rfl (.lit (by decide)) rfl
    (bit_returns (n := 24) (by decide)) rfl (t := uintT .w32) rfl
    (inRange_zero (t := uintT .w32)) (by decide)
  refine hout.congr ?_
  have hmin := (uintT .w32).minVal_unsigned rfl
  obtain ⟨hx₀, -⟩ := hx
  obtain ⟨hy₀, -⟩ := hy
  omega

/-- Past the guard, the factors are in range but where one slips. -/
theorem range24_iff (hk : ¬ (x > 2 ^ 24 ∨ y > 2 ^ 24)) :
    BuiltIn.Range24 (uintT .w32) x ∧ BuiltIn.Range24 (uintT .w32) y ↔ ¬ Slips x y := by
  have h24 : ∀ v, BuiltIn.Range24 (uintT .w32) v ↔ 0 ≤ v ∧ v ≤ 2 ^ 24 - 1 := fun v => Iff.rfl
  have hmin := (uintT .w32).minVal_unsigned rfl
  obtain ⟨hx₀, -⟩ := hx
  obtain ⟨hy₀, -⟩ := hy
  rw [h24, h24]
  unfold Slips
  omega

/-- Past the guard a call is defined where no factor slips; before it, the
first operand is returned. -/
theorem unsigned_defined {e : Expr} (he : e.Defined ↔
    BuiltIn.Range24 (uintT .w32) x ∧ BuiltIn.Range24 (uintT .w32) y) :
    (cond (Macro.umul24Guard (lit (uintT .w32) x) (lit (uintT .w32) y)) (lit (uintT .w32) x)
      e).Defined ↔ ¬ Slips x y := by
  rw [defined_cond (umul24Guard_decides hx hy), he]
  by_cases hk : x > 2 ^ 24 ∨ y > 2 ^ 24
  · have hs : ¬ Slips x y := by
      unfold Slips
      omega
    have hleft := (Returns.lit hx).defined
    tauto
  · rw [range24_iff hx hy hk]
    tauto

theorem safeMul24FuncUU_defined_iff : (Macro.safeMul24FuncUU x y).Defined ↔ ¬ Slips x y := by
  refine unsigned_defined hx hy ?_
  rw [BuiltIn.defined_mul24 (.lit hx) (.lit hy)]
  simp [uintT]

theorem safeMad24FuncUUU_defined_iff (hz : (uintT .w32).InRange z) :
    (Macro.safeMad24FuncUUU x y z).Defined ↔ ¬ Slips x y := by
  refine unsigned_defined hx hy ?_
  rw [BuiltIn.defined_mad24 (.lit hx) (.lit hy) (.lit hz)]
  simp [uintT]

end Unsigned

/-- **The built-ins are called on defined operands only**, but that an unsigned
product of `2 ^ 24` and no more reaches `mul24` or `mad24`. The signed guards, and
those of `mad_hi` and `clamp`, let nothing through that a built-in is not defined on. -/
theorem clMacros_defined {w : Width} {t₁ t₂ : IntTy} (x y z : (intT .w32).Value)
    (u v c : (uintT .w32).Value) (p q r : (intT w).Value) (a : t₁.Value) (lo hi : t₂.Value) :
    (Macro.safeMul24FuncSS x y).Defined ∧ (Macro.safeMad24FuncSSS x y z).Defined ∧
      (Macro.safeMadHiFuncSSS w p q r).Defined ∧ (Macro.safeClampFunc t₁ t₂ a lo hi).Defined ∧
      ((Macro.safeMul24FuncUU u v).Defined ↔ ¬ Slips u v) ∧
      ((Macro.safeMad24FuncUUU u v c).Defined ↔ ¬ Slips u v) :=
  ⟨safeMul24FuncSS_defined x.2 y.2, safeMad24FuncSSS_defined x.2 y.2 z.2,
    safeMadHiFuncSSS_defined w p.2 q.2 r.2, safeClampFunc_defined a.2 lo.2 hi.2,
    safeMul24FuncUU_defined_iff u.2 v.2, safeMad24FuncUUU_defined_iff u.2 v.2 c.2⟩

/-- `2 ^ 24` passes the unsigned guard. -/
theorem not_safeMul24FuncUU_defined : ¬ (Macro.safeMul24FuncUU (2 ^ 24) 1).Defined := by
  rw [safeMul24FuncUU_defined_iff (by decide) (by decide)]
  unfold Slips
  omega

end SafeMath

end CLSmith
