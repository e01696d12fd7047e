import CLSmith.SafeMath.Functions
import Mathlib.Algebra.Order.Ring.Int
/-!
# The guards

The macros and the functions write the same guards around different
spellings of the operands: a macro casts each use to the type, a function
uses its parameters and the constants as they are. Here each guard is
stated once, over operands that return given values at the type, with the
condition it decides and the value of the conditional it stands in.
-/

namespace CLSmith

namespace SafeMath

open Common Expr

/-- **The two operands of a template's type**, and a constant `0` of that
type or of `int`. -/
structure Args (t : IntTy) (A B Z : Expr) (x y : ℤ) : Prop where
  left : A.Returns x
  leftTy : A.ty = t
  right : B.Returns y
  rightTy : B.ty = t
  zero : Z.Returns 0
  zeroTy : IntTy.common t Z.ty = t.promote

/-- An operand's value is one of the type's. -/
theorem inRange_of {t : IntTy} {A : Expr} {x : ℤ} (h : A.Returns x) (ht : A.ty = t) :
    t.InRange x := ht ▸ h.inRange

theorem inRange_zero {t : IntTy} : t.InRange 0 := by
  have h₀ := t.minVal_nonpos
  have h₁ := t.maxVal_pos
  exact ⟨h₀, h₁.le⟩

theorem inRange_minVal {t : IntTy} : t.InRange t.minVal := by
  have h₀ := t.minVal_nonpos
  have h₁ := t.maxVal_pos
  exact ⟨le_rfl, by omega⟩

theorem inRange_maxVal {t : IntTy} : t.InRange t.maxVal := by
  have h₀ := t.minVal_nonpos
  have h₁ := t.maxVal_pos
  exact ⟨by omega, le_rfl⟩

theorem intMin_returns (w : Width) : (intMin w).Returns (intT w).minVal :=
  .lit inRange_minVal.promote

theorem intMax_returns (w : Width) : (intMax w).Returns (intT w).maxVal :=
  .lit inRange_maxVal.promote

theorem uintMax_returns (w : Width) : (uintMax w).Returns (uintT w).maxVal :=
  .lit inRange_maxVal.promote

theorem intMin_ty (w : Width) : (intMin w).ty = (intT w).promote := rfl

theorem intMin_promote (w : Width) : (intMin w).ty.promote = (intT w).promote := by
  rw [intMin_ty, IntTy.promote_promote]

theorem intMax_ty (w : Width) : (intMax w).ty = (intT w).promote := rfl

theorem intMax_promote (w : Width) : (intMax w).ty.promote = (intT w).promote := by
  rw [intMax_ty, IntTy.promote_promote]

theorem intT_minVal (w : Width) : (intT w).minVal = -((intT w).maxVal + 1) :=
  IntTy.minVal_signed rfl

theorem two_pow_eq (w : Width) : (2 : ℤ) ^ (w.bits - 1) = (intT w).maxVal + 1 := by
  cases w <;> decide

/-- The bit pattern of the least value, read at the promoted type. -/
theorem mask_cases (w : Width) :
    (w.Narrow ∧ (intT w).promote.wrap (2 ^ (w.bits - 1)) = (intT w).maxVal + 1 ∧
      3 * ((intT w).maxVal + 1) ≤ (intT w).promote.maxVal) ∨
    (¬ w.Narrow ∧ (intT w).promote.wrap (2 ^ (w.bits - 1)) = -((intT w).maxVal + 1) ∧
      (intT w).promote.maxVal = (intT w).maxVal) := by
  cases w <;> decide

theorem narrow_or_unsigned (w : Width) : w.Narrow ∨ (uintT w).promote.signed = false := by
  cases w <;> decide

/-! ## Quotients and products -/

theorem tdiv_lt_iff {M a b : ℤ} (hM : 0 ≤ M) (hb : 0 < b) : M.tdiv b < a ↔ M < a * b := by
  rw [Int.tdiv_eq_ediv_of_nonneg hM]
  exact Int.ediv_lt_iff_lt_mul hb

theorem lt_neg_tdiv_iff {M a b : ℤ} (hM : 0 ≤ M) (hb : 0 < b) :
    a < (-M).tdiv b ↔ a * b < -M := by
  have h := tdiv_lt_iff (a := -a) hM hb
  rw [Int.neg_mul] at h
  rw [Int.neg_tdiv]
  omega

theorem lt_tdiv_neg_iff {M a b : ℤ} (hM : 0 ≤ M) (hb : b < 0) :
    a < M.tdiv b ↔ M < a * b := by
  have h := tdiv_lt_iff (a := -a) hM (b := -b) (by omega)
  rw [Int.neg_mul_neg, Int.tdiv_neg] at h
  omega

theorem natAbs_tdiv_le (a b : ℤ) : -|a| ≤ a.tdiv b ∧ a.tdiv b ≤ |a| := by
  have h := Int.natAbs_tdiv_le_natAbs a b
  rw [Int.abs_eq_natAbs]
  omega

namespace Args

variable {t : IntTy} {A B Z : Expr} {x y : ℤ} {r : ℤ → ℤ → Prop} [DecidableRel r]

section Operands

variable (h : Args t A B Z x y)
include h

theorem left_inRange : t.InRange x := inRange_of h.left h.leftTy

theorem right_inRange : t.InRange y := inRange_of h.right h.rightTy

theorem left_promote : A.ty.promote = t.promote := by rw [h.leftTy]

theorem right_promote : B.ty.promote = t.promote := by rw [h.rightTy]

theorem left_zero : (compare r A Z).Decides (r x 0) :=
  .compare h.left h.zero (by rw [h.leftTy, h.zeroTy]) h.left_inRange.promote
    inRange_zero.promote

theorem right_zero : (compare r B Z).Decides (r y 0) :=
  .compare h.right h.zero (by rw [h.rightTy, h.zeroTy]) h.right_inRange.promote
    inRange_zero.promote

/-- The left operand against an expression of the promoted type. -/
theorem left_compare {e : Expr} {v : ℤ} (he : e.Returns v) (het : e.ty = t.promote) :
    (compare r A e).Decides (r x v) :=
  .compare h.left he (by rw [h.leftTy, het, IntTy.common_promote]) h.left_inRange.promote
    (inRange_of he het)

theorem right_compare {e : Expr} {v : ℤ} (he : e.Returns v) (het : e.ty = t.promote) :
    (compare r B e).Decides (r y v) :=
  .compare h.right he (by rw [h.rightTy, het, IntTy.common_promote])
    h.right_inRange.promote (inRange_of he het)

end Operands

section Signed

variable {w : Width} (h : Args (intT w) A B Z x y)
include h

/-- Unary minus keeps the least value. -/
theorem unaryMinus :
    (cond (eq A (intMin w)) A (-A)).Returns (if (intT w).InRange (-x) then -x else x) := by
  have hmin := intT_minVal w
  obtain ⟨hx₀, hx₁⟩ := h.left_inRange
  have hc : (eq A (intMin w)).Decides (¬ (intT w).InRange (-x)) := by
    refine (h.left_compare (intMin_returns w) rfl).congr ?_
    unfold IntTy.InRange
    omega
  refine .cond hc h.left_promote (by rw [ty_neg, h.leftTy, IntTy.promote_promote]) ?_ ?_
  · intro hx
    rw [if_neg hx]
    exact h.left
  · intro hx
    rw [if_pos (not_not.mp hx)]
    exact h.left.neg h.left_promote (not_not.mp hx).promote

/-- The overflow test of a sum; `M` and `N` spell the type's limits. -/
theorem addGuard_limits {M N : Expr} (hM : M.Returns (intT w).maxVal)
    (hMt : M.ty.promote = (intT w).promote) (hN : N.Returns (intT w).minVal)
    (hNt : N.ty.promote = (intT w).promote) :
    (lor (land (land (gt A Z) (gt B Z)) (gt A (M - B)))
      (land (land (lt A Z) (lt B Z)) (lt A (N - B)))).Decides
        (¬ (intT w).InRange (x + y)) := by
  have hmin := intT_minVal w
  obtain ⟨hx₀, hx₁⟩ := h.left_inRange
  obtain ⟨hy₀, hy₁⟩ := h.right_inRange
  have hpos : (land (land (gt A Z) (gt B Z)) (gt A (M - B))).Decides
      ((x > 0 ∧ y > 0) ∧ x > (intT w).maxVal - y) := by
    refine (h.left_zero.land fun _ => h.right_zero).land fun hp => ?_
    have hr : (intT w).InRange ((intT w).maxVal - y) := ⟨by omega, by omega⟩
    exact h.left_compare (hM.sub h.right hMt h.right_promote hr.promote)
      (IntTy.common_eq hMt h.right_promote)
  have hneg : (land (land (lt A Z) (lt B Z)) (lt A (N - B))).Decides
      ((x < 0 ∧ y < 0) ∧ x < (intT w).minVal - y) := by
    refine (h.left_zero.land fun _ => h.right_zero).land fun hp => ?_
    have hr : (intT w).InRange ((intT w).minVal - y) := ⟨by omega, by omega⟩
    exact h.left_compare (hN.sub h.right hNt h.right_promote hr.promote)
      (IntTy.common_eq hNt h.right_promote)
  refine (hpos.lor fun _ => hneg).congr ?_
  unfold IntTy.InRange
  omega

theorem addGuard :
    (lor (land (land (gt A Z) (gt B Z)) (gt A (intMax w - B)))
      (land (land (lt A Z) (lt B Z)) (lt A (intMin w - B)))).Decides
        (¬ (intT w).InRange (x + y)) :=
  h.addGuard_limits (intMax_returns w) (intMax_promote w) (intMin_returns w) (intMin_promote w)

theorem mulGuard :
    (lor (lor (lor
      (land (land (gt A Z) (gt B Z)) (gt A (intMax w / B)))
      (land (land (gt A Z) (le B Z)) (lt B (intMin w / A))))
      (land (land (le A Z) (gt B Z)) (lt A (intMin w / B))))
      (land (land (land (le A Z) (le B Z)) (ne A Z)) (lt B (intMax w / A)))).Decides
        (¬ (intT w).InRange (x * y)) := by
  have hmin := intT_minVal w
  have hmax := (intT w).maxVal_pos
  have hM := natAbs_tdiv_le (intT w).maxVal
  have hm : ∀ {b : ℤ}, 0 < b → (intT w).minVal ≤ (intT w).minVal.tdiv b ∧
      (intT w).minVal.tdiv b ≤ 0 := by
    intro b hb
    have hb₀ := natAbs_tdiv_le (intT w).minVal b
    rw [abs_of_neg (by omega)] at hb₀
    have hb₁ := Int.tdiv_nonneg (a := -(intT w).minVal) (b := b) (by omega) hb.le
    rw [Int.neg_tdiv] at hb₁
    omega
  rw [abs_of_pos hmax] at hM
  have hpp : (land (land (gt A Z) (gt B Z)) (gt A (intMax w / B))).Decides
      ((x > 0 ∧ y > 0) ∧ x > (intT w).maxVal.tdiv y) := by
    refine (h.left_zero.land fun _ => h.right_zero).land fun hp => ?_
    have hr : (intT w).InRange ((intT w).maxVal.tdiv y) :=
      ⟨by have := hM y; omega, (hM y).2⟩
    exact h.left_compare ((intMax_returns w).div h.right (intMax_promote w) h.right_promote
      (by omega) hr.promote) (IntTy.common_eq (intMax_promote w) h.right_promote)
  have hpn : (land (land (gt A Z) (le B Z)) (lt B (intMin w / A))).Decides
      ((x > 0 ∧ y ≤ 0) ∧ y < (intT w).minVal.tdiv x) := by
    refine (h.left_zero.land fun _ => h.right_zero).land fun hp => ?_
    have hr : (intT w).InRange ((intT w).minVal.tdiv x) :=
      ⟨(hm hp.1).1, by have := (hm hp.1).2; omega⟩
    exact h.right_compare ((intMin_returns w).div h.left (intMin_promote w) h.left_promote
      (by omega) hr.promote) (IntTy.common_eq (intMin_promote w) h.left_promote)
  have hnp : (land (land (le A Z) (gt B Z)) (lt A (intMin w / B))).Decides
      ((x ≤ 0 ∧ y > 0) ∧ x < (intT w).minVal.tdiv y) := by
    refine (h.left_zero.land fun _ => h.right_zero).land fun hp => ?_
    have hr : (intT w).InRange ((intT w).minVal.tdiv y) :=
      ⟨(hm hp.2).1, by have := (hm hp.2).2; omega⟩
    exact h.left_compare ((intMin_returns w).div h.right (intMin_promote w) h.right_promote
      (by omega) hr.promote) (IntTy.common_eq (intMin_promote w) h.right_promote)
  have hnn : (land (land (land (le A Z) (le B Z)) (ne A Z)) (lt B (intMax w / A))).Decides
      (((x ≤ 0 ∧ y ≤ 0) ∧ x ≠ 0) ∧ y < (intT w).maxVal.tdiv x) := by
    refine ((h.left_zero.land fun _ => h.right_zero).land fun _ => h.left_zero).land
      fun hp => ?_
    have hr : (intT w).InRange ((intT w).maxVal.tdiv x) :=
      ⟨by have := hM x; omega, (hM x).2⟩
    exact h.right_compare ((intMax_returns w).div h.left (intMax_promote w) h.left_promote
      (by omega) hr.promote) (IntTy.common_eq (intMax_promote w) h.left_promote)
  refine (((hpp.lor fun _ => hpn).lor fun _ => hnp).lor fun _ => hnn).congr ?_
  rw [hmin]
  unfold IntTy.InRange
  rw [hmin]
  rcases lt_trichotomy x 0 with hx | rfl | hx <;> rcases lt_or_ge 0 y with hy | hy
  · -- one negative, one positive: only the lower bound can fail
    have hxy := Int.mul_neg_of_neg_of_pos hx hy
    have := lt_neg_tdiv_iff (M := (intT w).maxVal + 1) (a := x) (by omega) hy
    omega
  · have hxy := Int.mul_nonneg_of_nonpos_of_nonpos hx.le hy
    have := lt_tdiv_neg_iff (M := (intT w).maxVal) (a := y) (by omega) hx
    rw [Int.mul_comm y x] at this
    omega
  · have := lt_neg_tdiv_iff (M := (intT w).maxVal + 1) (a := 0) (by omega) hy
    omega
  · omega
  · have hxy := Int.mul_pos hx hy
    have := tdiv_lt_iff (M := (intT w).maxVal) (a := x) (by omega) hy
    omega
  · have hxy := Int.mul_nonpos_of_nonneg_of_nonpos hx.le hy
    have := lt_neg_tdiv_iff (M := (intT w).maxVal + 1) (a := y) (by omega) hx
    rw [Int.mul_comm y x] at this
    omega

/-- The test `(si2 == 0) || ((si1 == MIN) && (si2 == -1))`; `N` spells `-1`. -/
theorem divGuard {N : Expr} (hN : N.Returns (-1))
    (hNt : IntTy.common (intT w) N.ty = (intT w).promote) :
    (lor (eq B Z) (land (eq A (intMin w)) (eq B N))).Decides
      (y = 0 ∨ (x = (intT w).minVal ∧ y = -1)) := by
  refine h.right_zero.lor fun _ =>
    (h.left_compare (intMin_returns w) rfl).land fun _ => ?_
  refine .compare h.right hN (by rw [h.rightTy, hNt]) h.right_inRange.promote ?_
  have hmin := (intT w).minVal_signed rfl
  have hmax := (intT w).maxVal_pos
  exact IntTy.InRange.promote ⟨by omega, by omega⟩

/-- The quotient fits but for the least value over `-1`. -/
theorem tdiv_inRange (hy : ¬ (y = 0 ∨ (x = (intT w).minVal ∧ y = -1))) :
    (intT w).InRange (x.tdiv y) := by
  have hmin := intT_minVal w
  have hmax := (intT w).maxVal_pos
  obtain ⟨hx₀, hx₁⟩ := h.left_inRange
  unfold IntTy.InRange
  have hd : (x.tdiv y).natAbs = x.natAbs / y.natAbs := Int.natAbs_tdiv x y
  by_cases hy₁ : y = 1
  · rw [hy₁, Int.tdiv_one]
    omega
  by_cases hy₂ : y = -1
  · rw [hy₂, Int.tdiv_neg, Int.tdiv_one]
    omega
  · have hle : x.natAbs / y.natAbs ≤ x.natAbs / 2 := Nat.div_le_div_left (by omega) (by decide)
    omega

theorem tmod_inRange (hy : y ≠ 0) : (intT w).InRange (x.tmod y) := by
  obtain ⟨hy₀, hy₁⟩ := h.right_inRange
  have hmin := intT_minVal w
  have hm := Int.natAbs_tmod x y
  have hlt : x.natAbs % y.natAbs < y.natAbs := Nat.mod_lt _ (by omega)
  unfold IntTy.InRange
  omega

/-- The sign test of the subtractions. The mask `K` is the least value's bit
pattern, of the promoted type: from `int` on it is the least value, and
flipping it off the left operand tells an overflow; below, it is a positive
`int`, and the test holds wherever the signs differ. -/
theorem subGuard {K : Expr} {k : ℤ} (hK : K.Returns k)
    (hKt : K.ty.promote = (intT w).promote)
    (hk : k = (intT w).promote.wrap (2 ^ (w.bits - 1))) :
    (lt ((A ^^^ B) &&& (((A ^^^ ((A ^^^ B) &&& K)) - B) ^^^ B)) Z).Decides
      (¬ (x < 0 ↔ y < 0) ∧ (w.Narrow ∨ ¬ (intT w).InRange (x - y))) := by
  obtain ⟨p, hp⟩ : ∃ p, p = (intT w).promote := ⟨_, rfl⟩
  have hs : p.signed = true := by rw [hp]; exact IntTy.signed_promote rfl
  have hpp : p.promote = p := by rw [hp, IntTy.promote_promote]
  have hA : A.ty.promote = p := h.left_promote.trans hp.symm
  have hB : B.ty.promote = p := h.right_promote.trans hp.symm
  have hKp : K.ty.promote = p := hKt.trans hp.symm
  have hxp : p.InRange x := hp ▸ h.left_inRange.promote
  have hyp : p.InRange y := hp ▸ h.right_inRange.promote
  obtain ⟨hx₀, hx₁⟩ := h.left_inRange
  obtain ⟨hy₀, hy₁⟩ := h.right_inRange
  have hpow := two_pow_eq w
  have hmin := intT_minVal w
  have hpmin := IntTy.minVal_signed hs
  have hmask := mask_cases w
  rw [← hk, ← hp] at hmask
  have hadd : ¬ x < 0 → p.InRange (x + k) := fun hx => ⟨by omega, by omega⟩
  have hsub : x < 0 → p.InRange (x - k) := fun hx => ⟨by omega, by omega⟩
  -- the left operand with its sign bit flipped where the signs differ
  obtain ⟨f, hf⟩ : ∃ f, f = if x < 0 ↔ y < 0 then x else if x < 0 then x - k else x + k :=
    ⟨_, rfl⟩
  have hflip : (p.toBits x ^^^ ((p.toBits x ^^^ p.toBits y) &&& p.toBits k)).toInt = f := by
    rw [hf]
    refine IntTy.toInt_flip hs (k := w.bits - 1) ?_ ?_ ⟨by omega, by omega⟩
      ⟨by omega, by omega⟩ hadd hsub hxp
    · rw [hp]
      cases w <;> decide
    · rw [hk, ← hp, IntTy.toBits_wrap, IntTy.toBits_two_pow]
  have hd : p.InRange (f - y) := by
    unfold IntTy.InRange
    split_ifs at hf <;> omega
  have hxor : (A ^^^ B).Returns (p.toBits x ^^^ p.toBits y).toInt :=
    h.left.xor h.right hA hB hs
  have hxorTy : (A ^^^ B).ty.promote = p := by rw [ty_xor, IntTy.common_eq hA hB, hpp]
  have hand := hxor.and hK hxorTy hKp hs
  rw [IntTy.toBits_toInt] at hand
  have handTy : ((A ^^^ B) &&& K).ty.promote = p := by
    rw [ty_and, IntTy.common_eq hxorTy hKp, hpp]
  have hleft := h.left.xor hand hA handTy hs
  rw [IntTy.toBits_toInt, hflip] at hleft
  have hleftTy : (A ^^^ ((A ^^^ B) &&& K)).ty.promote = p := by
    rw [ty_xor, IntTy.common_eq hA handTy, hpp]
  have hdiff := hleft.sub h.right hleftTy hB hd
  have hdiffTy : ((A ^^^ ((A ^^^ B) &&& K)) - B).ty.promote = p := by
    rw [ty_sub, IntTy.common_eq hleftTy hB, hpp]
  have hsign := hdiff.xor h.right hdiffTy hB hs
  have hsignTy : (((A ^^^ ((A ^^^ B) &&& K)) - B) ^^^ B).ty.promote = p := by
    rw [ty_xor, IntTy.common_eq hdiffTy hB, hpp]
  have hall := hxor.and hsign hxorTy hsignTy hs
  refine (Decides.compare (t := p) hall h.zero ?_ ?_ inRange_zero).congr ?_
  · rw [ty_and, IntTy.common_eq hxorTy hsignTy, hp, IntTy.common_promote_left, h.zeroTy]
  · have hr := hall.inRange
    rwa [ty_and, IntTy.common_eq hxorTy hsignTy] at hr
  · rw [IntTy.toBits_toInt, IntTy.toBits_toInt, IntTy.toInt_and_neg, IntTy.toInt_xor_neg,
      IntTy.toInt_xor_neg, IntTy.toInt_toBits hs hxp, IntTy.toInt_toBits hs hyp,
      IntTy.toInt_toBits hs hd]
    unfold IntTy.InRange
    rcases hmask with ⟨hn, hk', hw⟩ | ⟨hn, hk', hw⟩
    · simp only [hn, true_or, and_true]
      split_ifs at hf <;> omega
    · simp only [hn, false_or]
      split_ifs at hf <;> omega

theorem sub {K : Expr} {k : ℤ} (hK : K.Returns k)
    (hKt : K.ty.promote = (intT w).promote)
    (hk : k = (intT w).promote.wrap (2 ^ (w.bits - 1))) :
    (cond (lt ((A ^^^ B) &&& (((A ^^^ ((A ^^^ B) &&& K)) - B) ^^^ B)) Z) A (A - B)).Returns
      (if ¬ (x < 0 ↔ y < 0) ∧ (w.Narrow ∨ ¬ (intT w).InRange (x - y)) then x else x - y) := by
  have hmin := intT_minVal w
  obtain ⟨hx₀, hx₁⟩ := h.left_inRange
  obtain ⟨hy₀, hy₁⟩ := h.right_inRange
  refine .cond (h.subGuard hK hKt hk) h.left_promote ?_ ?_ ?_
  · rw [ty_sub, IntTy.common_eq h.left_promote h.right_promote, IntTy.promote_promote]
  · intro hg
    rw [if_pos hg]
    exact h.left
  · intro hg
    rw [if_neg hg]
    -- operands of one sign cannot overflow
    have hr : (intT w).InRange (x - y) := by
      by_cases hxy : x < 0 ↔ y < 0
      · exact ⟨by omega, by omega⟩
      · by_contra hr
        exact hg ⟨hxy, Or.inr hr⟩
    exact h.left.sub h.right h.left_promote h.right_promote hr.promote

variable {N : Expr} (hN : N.Returns (-1))
  (hNt : IntTy.common (intT w) N.ty = (intT w).promote)
include hN hNt

theorem div :
    (cond (lor (eq B Z) (land (eq A (intMin w)) (eq B N))) A (A / B)).Returns
      (if y = 0 ∨ (x = (intT w).minVal ∧ y = -1) then x else x.tdiv y) := by
  refine .cond (h.divGuard hN hNt) h.left_promote ?_ ?_ ?_
  · rw [ty_div, IntTy.common_eq h.left_promote h.right_promote, IntTy.promote_promote]
  · intro hg
    rw [if_pos hg]
    exact h.left
  · intro hg
    rw [if_neg hg]
    exact h.left.div h.right h.left_promote h.right_promote (by omega)
      (h.tdiv_inRange hg).promote

theorem mod :
    (cond (lor (eq B Z) (land (eq A (intMin w)) (eq B N))) A (A % B)).Returns
      (if y = 0 ∨ (x = (intT w).minVal ∧ y = -1) then x else x.tmod y) := by
  refine .cond (h.divGuard hN hNt) h.left_promote ?_ ?_ ?_
  · rw [ty_mod, IntTy.common_eq h.left_promote h.right_promote, IntTy.promote_promote]
  · intro hg
    rw [if_pos hg]
    exact h.left
  · intro hg
    rw [if_neg hg]
    exact h.left.mod h.right h.left_promote h.right_promote (by omega)
      (h.tdiv_inRange hg).promote (h.tmod_inRange (by omega)).promote

end Signed

section Unsigned

variable {w : Width} (h : Args (uintT w) A B Z x y)
include h

/-- Below `int` the operands are values of `int`, as are their sums and
differences. -/
theorem narrow_inRange {v : ℤ} (hw : w.Narrow) (h₀ : -(uintT w).maxVal ≤ v)
    (h₁ : v ≤ 2 * (uintT w).maxVal) : (uintT w).promote.InRange v := by
  have hmax : (uintT w).maxVal ≤ 65535 := by
    rcases hw with rfl | rfl <;> decide
  have hp : (uintT w).promote = .int := by
    rcases hw with rfl | rfl <;> rfl
  have hint : IntTy.int.minVal = -2147483648 ∧ IntTy.int.maxVal = 2147483647 := by decide
  rw [hp]
  exact ⟨by omega, by omega⟩

theorem uneg : (-A).Returns ((uintT w).promote.wrap (-x)) := by
  rcases narrow_or_unsigned w with hn | hu
  · obtain ⟨hx₀, hx₁⟩ := h.left_inRange
    have hmin := (uintT w).minVal_unsigned rfl
    have hr := h.narrow_inRange hn (v := -x) (by omega) (by omega)
    rw [IntTy.wrap_of_inRange hr]
    exact h.left.neg h.left_promote hr
  · exact h.left.neg_wrap h.left_promote hu

theorem uadd : (A + B).Returns ((uintT w).promote.wrap (x + y)) := by
  rcases narrow_or_unsigned w with hn | hu
  · obtain ⟨hx₀, hx₁⟩ := h.left_inRange
    obtain ⟨hy₀, hy₁⟩ := h.right_inRange
    have hmin := (uintT w).minVal_unsigned rfl
    have hr := h.narrow_inRange hn (v := x + y) (by omega) (by omega)
    rw [IntTy.wrap_of_inRange hr]
    exact h.left.add h.right h.left_promote h.right_promote hr
  · exact h.left.arith_wrap h.right h.left_promote h.right_promote (f := (· + ·)) hu

theorem usub : (A - B).Returns ((uintT w).promote.wrap (x - y)) := by
  rcases narrow_or_unsigned w with hn | hu
  · obtain ⟨hx₀, hx₁⟩ := h.left_inRange
    obtain ⟨hy₀, hy₁⟩ := h.right_inRange
    have hmin := (uintT w).minVal_unsigned rfl
    have hr := h.narrow_inRange hn (v := x - y) (by omega) (by omega)
    rw [IntTy.wrap_of_inRange hr]
    exact h.left.sub h.right h.left_promote h.right_promote hr
  · exact h.left.arith_wrap h.right h.left_promote h.right_promote (f := (· - ·)) hu

theorem utdiv_inRange : (uintT w).InRange (x.tdiv y) := by
  obtain ⟨hx₀, hx₁⟩ := h.left_inRange
  obtain ⟨hy₀, -⟩ := h.right_inRange
  have hmin := (uintT w).minVal_unsigned rfl
  have hq := natAbs_tdiv_le x y
  have hq' := Int.tdiv_nonneg (a := x) (b := y) (by omega) (by omega)
  rw [abs_of_nonneg (by omega)] at hq
  exact ⟨by omega, by omega⟩

theorem utmod_inRange (hy : y ≠ 0) : (uintT w).InRange (x.tmod y) := by
  obtain ⟨hx₀, hx₁⟩ := h.left_inRange
  obtain ⟨hy₀, hy₁⟩ := h.right_inRange
  have hmin := (uintT w).minVal_unsigned rfl
  have hm₀ := Int.tmod_nonneg y (show 0 ≤ x by omega)
  have hm₁ := Int.tmod_lt_of_pos x (show 0 < y by omega)
  exact ⟨by omega, by omega⟩

theorem udiv : (cond (eq B Z) A (A / B)).Returns (if y = 0 then x else x.tdiv y) := by
  refine .cond h.right_zero h.left_promote ?_ ?_ ?_
  · rw [ty_div, IntTy.common_eq h.left_promote h.right_promote, IntTy.promote_promote]
  · intro hg
    rw [if_pos hg]
    exact h.left
  · intro hg
    rw [if_neg hg]
    exact h.left.div h.right h.left_promote h.right_promote hg h.utdiv_inRange.promote

theorem umod : (cond (eq B Z) A (A % B)).Returns (if y = 0 then x else x.tmod y) := by
  refine .cond h.right_zero h.left_promote ?_ ?_ ?_
  · rw [ty_mod, IntTy.common_eq h.left_promote h.right_promote, IntTy.promote_promote]
  · intro hg
    rw [if_pos hg]
    exact h.left
  · intro hg
    rw [if_neg hg]
    exact h.left.mod h.right h.left_promote h.right_promote hg h.utdiv_inRange.promote
      (h.utmod_inRange hg).promote

end Unsigned

/-- **A guarded operator**: where the guard tells that the exact result `v`
does not fit, the conditional keeps the first operand. -/
theorem guarded {G e : Expr} {v : ℤ} (h : Args t A B Z x y) (het : e.ty.promote = t.promote)
    (hG : G.Decides (¬ t.InRange v)) (he : t.InRange v → e.Returns v) :
    (cond G A e).Returns (if t.InRange v then v else x) := by
  refine .cond hG h.left_promote het ?_ ?_
  · intro hv
    rw [if_neg hv]
    exact h.left
  · intro hv
    rw [if_pos (not_not.mp hv)]
    exact he (not_not.mp hv)

end Args

/-! ## Shifts -/

theorem shr_inRange {t : IntTy} {x : ℤ} (hx : t.InRange x) (h₀ : 0 ≤ x) (k : ℕ) :
    t.InRange (x / 2 ^ k) := by
  have hd₀ := Int.ediv_nonneg h₀ (Int.pow_pos (n := 2) (m := k) (by decide)).le
  have hd₁ := Int.ediv_le_self (2 ^ k) h₀
  exact ⟨t.minVal_nonpos.trans hd₀, hd₁.trans hx.2⟩

section Shift

variable {t : IntTy} {A D M R : Expr} {x : ℤ} {n : ℕ} {y : ℤ} (hA : A.Returns x)
  (hAt : A.ty = t) (hR : R.Returns y) (hn : n ≤ t.promote.bits)
  (hD : D.Decides (x < 0 ∨ y < 0 ∨ n ≤ y))
include hA hAt hR hn hD

/-- A right shift off the counts `D` refuses. -/
theorem rshift_returns :
    (cond D A (A >>> R)).Returns (if x < 0 ∨ y < 0 ∨ n ≤ y then x else x / 2 ^ y.toNat) := by
  have hAp : A.ty.promote = t.promote := by rw [hAt]
  refine .cond hD hAp (by rw [ty_shr, hAp, IntTy.promote_promote]) ?_ ?_
  · intro hd
    rw [if_pos hd]
    exact hA
  · intro hd
    rw [if_neg hd]
    obtain ⟨k, rfl⟩ := Int.eq_ofNat_of_zero_le (show 0 ≤ y by omega)
    have hr := shr_inRange (inRange_of hA hAt) (show 0 ≤ x by omega) k
    exact hA.shr hAp hR (by omega) hr.promote

/-- A left shift off the counts `D` refuses and the bits that would be lost. -/
theorem lshift_returns (hM : M.Returns t.maxVal) (hMt : M.ty = t.promote) :
    (cond (lor D (gt A (M >>> R))) A (A <<< R)).Returns
      (if (x < 0 ∨ y < 0 ∨ n ≤ y) ∨ ¬ t.InRange (x * 2 ^ y.toNat) then x
        else x * 2 ^ y.toNat) := by
  have hAp : A.ty.promote = t.promote := by rw [hAt]
  have hMp : M.ty.promote = t.promote := by rw [hMt, IntTy.promote_promote]
  have hx := inRange_of hA hAt
  have hmin := t.minVal_nonpos
  have hmax := t.maxVal_pos
  have hG : (lor D (gt A (M >>> R))).Decides
      ((x < 0 ∨ y < 0 ∨ n ≤ y) ∨ ¬ t.InRange (x * 2 ^ y.toNat)) := by
    by_cases hd : x < 0 ∨ y < 0 ∨ (n : ℤ) ≤ y
    · exact (hD.lor (q := False) fun hn => absurd hd hn).congr (by simp [hd])
    obtain ⟨k, rfl⟩ := Int.eq_ofNat_of_zero_le (show 0 ≤ y by omega)
    have hpow := Int.pow_pos (n := 2) (m := k) (by decide)
    have hr := shr_inRange (t := t) inRange_maxVal hmax.le k
    have hshr := hM.shr hMp hR (by omega) hr.promote
    have hcmp : (gt A (M >>> R)).Decides (x > t.maxVal / 2 ^ k) := by
      refine .compare hA hshr ?_ hx.promote hr.promote
      rw [hAt, ty_shr, hMp, IntTy.common_promote]
    refine (hD.lor fun _ => hcmp).congr (or_congr_right ?_)
    have h₀ : 0 ≤ x * 2 ^ k := Int.mul_nonneg (by omega) hpow.le
    rw [gt_iff_lt, Int.ediv_lt_iff_lt_mul hpow]
    unfold IntTy.InRange
    rw [Int.toNat_natCast]
    omega
  refine .cond hG hAp (by rw [ty_shl, hAp, IntTy.promote_promote]) ?_ ?_
  · intro hd
    rw [if_pos hd]
    exact hA
  · intro hd
    rw [if_neg hd]
    obtain ⟨k, rfl⟩ := Int.eq_ofNat_of_zero_le (show 0 ≤ y by omega)
    rw [Int.toNat_natCast] at hd ⊢
    exact hA.shl hAp hR (by omega) (by omega) (not_not.mp (not_or.mp hd).2).promote

end Shift

/-! ## Counts -/

theorem sizeofBits_returns (a : AddressBits) (t : IntTy) :
    (sizeofBits a t).Returns t.bits := by
  obtain ⟨s, w⟩ := t
  cases a <;> cases s <;> cases w <;> rfl

theorem sizeofBits_ty (a : AddressBits) (t : IntTy) : (sizeofBits a t).ty = a.sizeT := by
  cases a <;> rfl

/-- Compared with a `size_t`, a negative count is a huge one. -/
theorem size_compare {R : Expr} {y : ℤ} (a : AddressBits) (t : IntTy) (hR : R.Returns y)
    (hRt : R.ty = .int ∨ R.ty = .unsigned) :
    (ge R (sizeofBits a t)).Decides (y < 0 ∨ t.bits ≤ y) := by
  have hc : IntTy.common R.ty (sizeofBits a t).ty = a.sizeT := by
    rw [sizeofBits_ty]
    rcases hRt with h | h <;> rw [h] <;> cases a <;> rfl
  have hy := hR.inRange
  have hbits : 0 < t.bits ∧ t.bits ≤ 64 := by
    obtain ⟨s, w⟩ := t
    cases s <;> cases w <;> decide
  have h32 : IntTy.card ⟨false, .w32⟩ = 4294967296 := by decide
  have h64 : IntTy.card ⟨false, .w64⟩ = 18446744073709551616 := by decide
  have hwrap : ∀ v, a.sizeT.wrap v = v % a.sizeT.card :=
    IntTy.wrap_unsigned (by cases a <;> rfl)
  have hint : IntTy.int.minVal = -2147483648 ∧ IntTy.int.maxVal = 2147483647 := by decide
  have huns : IntTy.unsigned.minVal = 0 ∧ IntTy.unsigned.maxVal = 4294967295 := by decide
  refine (Decides.compare_wrap hR (sizeofBits_returns a t) hc).congr ?_
  rw [hwrap, hwrap]
  have hyr : -2147483648 ≤ y ∧ y ≤ 4294967295 ∧ (2147483647 < y → 0 ≤ y) := by
    rcases hRt with h | h <;> rw [h] at hy <;> unfold IntTy.InRange at hy <;> omega
  cases a
  · rw [show AddressBits.sizeT .b32 = ⟨false, .w32⟩ from rfl, h32]
    omega
  · rw [show AddressBits.sizeT .b64 = ⟨false, .w64⟩ from rfl, h64]
    omega

end SafeMath

end CLSmith
