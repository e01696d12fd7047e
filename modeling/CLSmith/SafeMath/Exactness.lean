import CLSmith.SafeMath.Values
/-!
# The safe operators against exact arithmetic

No macro evaluates anything undefined, and off its guards a macro is the
exact result where that fits. The guards keep more than what is undefined:
an unsigned left shift that would lose bits, a right shift of a negative
operand, any count from the type's width on, and the least value modulo
`-1`. The function forms agree, but for the counts between the two bounds.
-/

namespace CLSmith

namespace SafeMath

open Common Expr

/-- **No undefined behaviour**: the evaluation of a macro, its guard and the branch
the guard selects, yields a value on any operands, for every operator and type and
with pointers of either size. -/
theorem macros_defined (a : AddressBits) (t : IntTy) (op : Op) (x y : ℤ) :
    ∃ v, (macroForm a t op x y).eval = .ok v :=
  ⟨_, macro_returns a t op x y⟩

/-! ## The exact results -/

variable (t : IntTy) (op : Op) (x y : ℤ)

/-- The exact result of an operation, nothing where C leaves it undefined on
the promoted operands. -/
def exact : Option ℤ :=
  match op with
  | .unaryMinus => some (-x)
  | .add => some (x + y)
  | .sub => some (x - y)
  | .mul => some (x * y)
  | .mod => if y = 0 ∨ ¬ t.promote.InRange (x.tdiv y) then none else some (x.tmod y)
  | .div => if y = 0 then none else some (x.tdiv y)
  | .lshiftS | .lshiftU =>
    if x < 0 ∨ y < 0 ∨ t.promote.bits ≤ y then none else some (x * 2 ^ y.toNat)
  | .rshiftS | .rshiftU =>
    if y < 0 ∨ t.promote.bits ≤ y then none else some (x / 2 ^ y.toNat)

/-- An exact result as a value of the type: modulo the cardinality where the
type is unsigned, the first operand where it is signed. -/
def reduced : Option ℤ → ℤ
  | none => x
  | some r => if t.InRange r then r else if t.signed then x else t.wrap r

/-- The operands a guard keeps although their operation is defined. -/
def Kept : Prop :=
  match op with
  | .mod => t.signed ∧ x = t.minVal ∧ y = -1
  | .lshiftS | .lshiftU => t.signed = false ∧ ¬ t.InRange (x * 2 ^ y.toNat)
  | .rshiftS | .rshiftU => x < 0 ∨ t.bits ≤ y
  | _ => False

instance : Decidable (Kept t op x y) := by
  unfold Kept
  cases op <;> infer_instance

/-- The value of a guarded operator. -/
def guardedVal : ℤ := if Kept t op x y then x else reduced t x (exact t op x y)

/-- Where the narrow macros go wrong: the sign test of the subtraction reads
a mask that is no longer the sign, and the unsigned sums are left in `int`. -/
def Slip : Prop :=
  t.width.Narrow ∧
    match t.signed, op with
    | true, .sub => ¬ (x < 0 ↔ y < 0) ∧ t.InRange (x - y) ∧ y ≠ 0
    | false, .unaryMinus => ¬ t.InRange (-x)
    | false, .add => ¬ t.InRange (x + y)
    | false, .sub => ¬ t.InRange (x - y)
    | _, _ => False

/-- The counts one form shifts by and the other refuses. -/
def CountGap : Prop :=
  match op with
  | .lshiftS | .lshiftU => 32 ≤ y ∧ y < t.bits
  | .rshiftS | .rshiftU => (32 ≤ y ∧ y < t.bits) ∨ (t.bits ≤ y ∧ y < 32)
  | _ => False

variable {t op x y}

theorem maxVal_lt_two_pow (t : IntTy) : t.maxVal < 2 ^ t.bits := by
  have hmin := t.minVal_nonpos
  show t.minVal + 2 ^ t.bits - 1 < _
  omega

/-- Shifted by its own width, nothing but zero stays in a type. -/
theorem eq_zero_of_shift (hx : 0 ≤ x) (hy : t.bits ≤ y) (h : t.InRange (x * 2 ^ y.toNat)) :
    x = 0 := by
  by_contra hne
  have hpow : (2 : ℤ) ^ t.bits ≤ 2 ^ y.toNat :=
    pow_le_pow_right₀ (by decide) (by omega)
  have hpos : (0 : ℤ) < 2 ^ y.toNat := Int.pow_pos (by decide)
  have hle : 1 * (2 : ℤ) ^ y.toNat ≤ x * 2 ^ y.toNat :=
    Int.mul_le_mul_of_nonneg_right (by omega) hpos.le
  have hmax := maxVal_lt_two_pow t
  have h₁ := h.2
  omega

theorem keep_eq_reduced (hs : t.signed = true) (v : ℤ) :
    keep t x v = reduced t x (some v) := by
  simp only [keep, reduced, hs, if_true]

theorem reduced_of_inRange {v : ℤ} (h : t.InRange v) : reduced t x (some v) = v := if_pos h

theorem reduced_unsigned (hs : t.signed = false) (v : ℤ) :
    reduced t x (some v) = t.wrap v := by
  by_cases h : t.InRange v
  · rw [reduced_of_inRange h, IntTy.wrap_of_inRange h]
  · simp [reduced, h, hs]

theorem lshiftVal_eq : lshiftVal t x y t.bits =
    if t.signed = false ∧ ¬ t.InRange (x * 2 ^ y.toNat) then x
    else reduced t x (if x < 0 ∨ y < 0 ∨ t.promote.bits ≤ y then none
      else some (x * 2 ^ y.toNat)) := by
  have hb := bits_le_promote t
  by_cases hp : x < 0 ∨ y < 0 ∨ (t.promote.bits : ℤ) ≤ y
  · rw [lshiftVal_kept (by omega), if_pos hp]
    exact (ite_self x).symm
  rw [if_neg hp]
  by_cases hr : t.InRange (x * 2 ^ y.toNat)
  · rw [if_neg (fun h => h.2 hr), reduced_of_inRange hr]
    by_cases hy : (t.bits : ℤ) ≤ y
    · rw [lshiftVal_kept (by omega), eq_zero_of_shift (by omega) hy hr, Int.zero_mul]
    · rw [lshiftVal_exact (by omega) hr]
  · rw [lshiftVal_lost hr]
    cases hs : t.signed with
    | false => rw [if_pos ⟨rfl, hr⟩]
    | true => rw [if_neg (by simp), ← keep_eq_reduced hs, keep, if_neg hr]

theorem rshiftVal_eq (hx : t.InRange x) : rshiftVal x y t.bits =
    if x < 0 ∨ t.bits ≤ y then x
    else reduced t x (if y < 0 ∨ t.promote.bits ≤ y then none
      else some (x / 2 ^ y.toNat)) := by
  have hb := bits_le_promote t
  by_cases h : x < 0 ∨ (t.bits : ℤ) ≤ y
  · rw [if_pos h, rshiftVal_kept (by omega)]
  rw [if_neg h]
  by_cases hy : y < 0
  · rw [rshiftVal_kept (by omega), if_pos (Or.inl hy)]
    rfl
  · rw [rshiftVal_exact (by omega), if_neg (by omega),
      reduced_of_inRange (shr_inRange hx (by omega) _)]

/-- The quotient a remainder is defined with, at the promoted type. -/
theorem mod_undefined (hx : t.InRange x) (hy : t.InRange y) (hk : ¬ DivKept t x y) :
    t.promote.InRange (x.tdiv y) ∧ t.InRange (x.tdiv y) ∧ t.InRange (x.tmod y) := by
  obtain ⟨s, w⟩ := t
  have hy₀ : y ≠ 0 := fun h => hk (Or.inl h)
  cases s with
  | false =>
    have h : Args (uintT w) (lit (uintT w) x) (lit (uintT w) y) (lit .int 0) x y :=
      ⟨.lit hx, rfl, .lit hy, rfl, .lit inRange_zero, IntTy.common_int⟩
    exact ⟨h.utdiv_inRange.promote, h.utdiv_inRange, h.utmod_inRange hy₀⟩
  | true =>
    have h : Args (intT w) (lit (intT w) x) (lit (intT w) y) (lit .int 0) x y :=
      ⟨.lit hx, rfl, .lit hy, rfl, .lit inRange_zero, IntTy.common_int⟩
    have hq := h.tdiv_inRange (fun hg => hk (divKept_intT.mpr hg))
    exact ⟨hq.promote, hq, h.tmod_inRange hy₀⟩

section Values

variable (hx : t.InRange x)
include hx

theorem sub_eq (hy : t.InRange y) (hs : t.signed = true)
    (hw : ¬ (t.width.Narrow ∧ ¬ (x < 0 ↔ y < 0) ∧ t.InRange (x - y) ∧ y ≠ 0)) :
    (if ¬ (x < 0 ↔ y < 0) ∧ (t.width.Narrow ∨ ¬ t.InRange (x - y)) then x else x - y) =
      keep t x (x - y) := by
  have hmin := t.minVal_signed hs
  obtain ⟨hx₀, hx₁⟩ := hx
  obtain ⟨hy₀, hy₁⟩ := hy
  by_cases hxy : x < 0 ↔ y < 0
  · have hr : t.InRange (x - y) := ⟨by omega, by omega⟩
    rw [if_neg (fun h => h.1 hxy), keep, if_pos hr]
  · by_cases hr : t.InRange (x - y)
    · rw [keep, if_pos hr]
      split_ifs with hg
      · have hn : t.width.Narrow := hg.2.resolve_right fun h' => h' hr
        have hy : y = 0 := by
          by_contra hne
          exact hw ⟨hn, hxy, hr, hne⟩
        omega
      · rfl
    · rw [if_pos ⟨hxy, Or.inr hr⟩, keep, if_neg hr]

theorem mod_eq (hy : t.InRange y) :
    (if DivKept t x y then x else x.tmod y) = guardedVal t .mod x y := by
  show _ = if t.signed ∧ x = t.minVal ∧ y = -1 then x else
    reduced t x (if y = 0 ∨ ¬ t.promote.InRange (x.tdiv y) then none else some (x.tmod y))
  by_cases hk : DivKept t x y
  · rw [if_pos hk]
    rcases hk with h | h
    · rw [if_pos (Or.inl h)]
      exact (ite_self x).symm
    · rw [if_pos h]
  · obtain ⟨hp, -, hm⟩ := mod_undefined hx hy hk
    rw [if_neg hk, if_neg (fun h => hk (Or.inr h)),
      if_neg (fun h => h.elim (fun h' => hk (Or.inl h')) (fun h' => h' hp)),
      reduced_of_inRange hm]

theorem div_eq (hy : t.InRange y) :
    (if DivKept t x y then x else x.tdiv y) = guardedVal t .div x y := by
  show _ = reduced t x (if y = 0 then none else some (x.tdiv y))
  by_cases hk : DivKept t x y
  · rw [if_pos hk]
    rcases hk with h | ⟨hs, hx', hy'⟩
    · rw [if_pos h]
      rfl
    · rw [if_neg (by omega), ← keep_eq_reduced hs, keep, if_neg]
      rw [hx', hy', Int.tdiv_neg, Int.tdiv_one, t.minVal_signed hs]
      rintro ⟨-, h₁⟩
      omega
  · obtain ⟨-, hq, -⟩ := mod_undefined hx hy hk
    rw [if_neg hk, if_neg (fun h => hk (Or.inl h)), reduced_of_inRange hq]

end Values

/-- A guarded signed operator, or an unsigned one whose result is reduced by
its conversion unless it is left in `int`, where it fits. -/
theorem sum_eq {k : ℤ} (v : ℤ) (hk : t.signed = true → k = keep t x v)
    (hv : t.signed = false → t.width.Narrow → t.InRange v) :
    (if t.signed then k else t.promote.wrap v) = reduced t x (some v) := by
  cases hs : t.signed with
  | true => exact (hk hs).trans (keep_eq_reduced hs v)
  | false =>
    rw [reduced_unsigned hs]
    show t.promote.wrap v = t.wrap v
    by_cases hw : t.width.Narrow
    · rw [IntTy.wrap_of_inRange (hv hs hw), IntTy.wrap_of_inRange (hv hs hw).promote]
    · rw [IntTy.promote, if_neg hw]

/-- **Off the slips a macro's value is the guarded exact result.** -/
theorem macroVal_eq (hx : t.InRange x) (hy : (op.rightTy t).InRange y)
    (hslip : ¬ Slip t op x y) : macroVal t x y op = guardedVal t op x y := by
  have hfit : ∀ v : ℤ, (t.signed = false → ¬ t.InRange v → t.width.Narrow → Slip t op x y) →
      t.signed = false → t.width.Narrow → t.InRange v := by
    intro v hv hs hw
    by_contra hr
    exact hslip (hv hs hr hw)
  cases op with
  | unaryMinus =>
    exact sum_eq (-x) (fun _ => rfl) (hfit _ fun hs hr hw => ⟨hw, by rw [hs]; exact hr⟩)
  | add =>
    exact sum_eq (x + y) (fun _ => rfl) (hfit _ fun hs hr hw => ⟨hw, by rw [hs]; exact hr⟩)
  | sub =>
    refine sum_eq (x - y) (fun hs => ?_)
      (hfit _ fun hs hr hw => ⟨hw, by rw [hs]; exact hr⟩)
    exact sub_eq hx hy hs fun h => hslip ⟨h.1, by rw [hs]; exact h.2⟩
  | mul =>
    show (if t.signed then _ else _) = reduced t x (some (x * y))
    cases hs : t.signed with
    | true => exact keep_eq_reduced hs _
    | false => exact (reduced_unsigned hs _).symm
  | mod => exact mod_eq hx hy
  | div => exact div_eq hx hy
  | lshiftS => exact lshiftVal_eq
  | lshiftU => exact lshiftVal_eq
  | rshiftS => exact rshiftVal_eq hx
  | rshiftU => exact rshiftVal_eq hx

theorem reduced_inRange (hx : t.InRange x) (r : Option ℤ) : t.InRange (reduced t x r) := by
  cases r with
  | none => exact hx
  | some v =>
    cases hs : t.signed with
    | true => exact keep_eq_reduced hs v ▸ keep_inRange hx
    | false => exact reduced_unsigned (x := x) hs v ▸ IntTy.wrap_inRange v

theorem guardedVal_inRange (hx : t.InRange x) : t.InRange (guardedVal t op x y) := by
  unfold guardedVal
  split_ifs
  · exact hx
  · exact reduced_inRange hx _

/-! ## The two forms -/

theorem fit_eq {k : ℤ} (v : ℤ) (hw : ¬ (t.signed ∧ t.width.Narrow))
    (hk : t.signed = true → k = keep t x v)
    (hv : t.signed = false → t.width.Narrow → t.InRange v) :
    (if t.signed then k else t.promote.wrap v) = fit t x v := by
  rw [sum_eq v hk hv]
  unfold fit
  cases hs : t.signed with
  | true =>
    rw [if_pos ⟨rfl, fun hn => hw ⟨hs, hn⟩⟩]
    exact (keep_eq_reduced hs v).symm
  | false =>
    rw [if_neg (by simp)]
    exact reduced_unsigned hs v

theorem lshiftVal_agree (hgap : ¬ (32 ≤ y ∧ y < t.bits)) :
    lshiftVal t x y t.bits = lshiftVal t x y 32 := by
  by_cases hr : t.InRange (x * 2 ^ y.toNat)
  · by_cases h : x < 0 ∨ y < 0 ∨ ((32 : ℕ) : ℤ) ≤ y
    · rw [lshiftVal_kept h, lshiftVal_kept (by omega)]
    · rw [lshiftVal_exact h hr]
      by_cases hy : (t.bits : ℤ) ≤ y
      · rw [lshiftVal_kept (by omega), eq_zero_of_shift (by omega) hy hr, Int.zero_mul]
      · rw [lshiftVal_exact (by omega) hr]
  · rw [lshiftVal_lost hr, lshiftVal_lost hr]

theorem rshiftVal_agree (hgap : ¬ ((32 ≤ y ∧ y < t.bits) ∨ (t.bits ≤ y ∧ y < 32))) :
    rshiftVal x y t.bits = rshiftVal x y 32 := by
  by_cases h : x < 0 ∨ y < 0 ∨ ((32 : ℕ) : ℤ) ≤ y
  · rw [rshiftVal_kept h, rshiftVal_kept (by omega)]
  · rw [rshiftVal_exact h, rshiftVal_exact (by omega)]

/-- **Off the slips and between equal bounds on the counts the two forms
agree**, at every type not narrower than `int` or unsigned. -/
theorem functionVal_eq (hx : t.InRange x) (hy : (op.rightTy t).InRange y)
    (hw : ¬ (t.signed ∧ t.width.Narrow)) (hslip : ¬ Slip t op x y)
    (hgap : ¬ CountGap t op y) : macroVal t x y op = functionVal t x y op := by
  have hfit : ∀ v : ℤ, (t.signed = false → ¬ t.InRange v → t.width.Narrow → Slip t op x y) →
      t.signed = false → t.width.Narrow → t.InRange v := by
    intro v hv hs hw
    by_contra hr
    exact hslip (hv hs hr hw)
  cases op with
  | unaryMinus =>
    exact fit_eq (-x) hw (fun _ => rfl) (hfit _ fun hs hr hw => ⟨hw, by rw [hs]; exact hr⟩)
  | add =>
    exact fit_eq (x + y) hw (fun _ => rfl)
      (hfit _ fun hs hr hw => ⟨hw, by rw [hs]; exact hr⟩)
  | sub =>
    refine fit_eq (x - y) hw (fun hs => ?_)
      (hfit _ fun hs hr hw => ⟨hw, by rw [hs]; exact hr⟩)
    exact sub_eq hx hy hs fun h => hslip ⟨h.1, by rw [hs]; exact h.2⟩
  | mul =>
    show (if t.signed then _ else _) = fit t x (x * y)
    unfold fit
    cases hs : t.signed with
    | true => rw [if_pos rfl, if_pos ⟨rfl, fun hn => hw ⟨hs, hn⟩⟩]
    | false => rw [if_neg (by simp), if_neg (by simp)]
  | mod => rfl
  | div => rfl
  | lshiftS => exact lshiftVal_agree hgap
  | lshiftU => exact lshiftVal_agree hgap
  | rshiftS => exact rshiftVal_agree hgap
  | rshiftU => exact rshiftVal_agree hgap

/-- **The macros against exact arithmetic and against the functions.** But for the
slips of the narrow types a macro returns the guarded value, which is in the range of
its type; and the function returns the same, unless the type is signed and narrow or
the two refuse different counts. -/
theorem macros_exact (a : AddressBits) (t : IntTy) (op : Op) (x : t.Value)
    (y : (op.rightTy t).Value) :
    (¬ Slip t op x y →
      (macroForm a t op x y).Returns (guardedVal t op x y) ∧
        t.InRange (guardedVal t op x y)) ∧
    (¬ Slip t op x y → ¬ (t.signed ∧ t.width.Narrow) → ¬ CountGap t op y →
      ∃ v, (macroForm a t op x y).Returns v ∧ (functionForm t op x y).Returns v) := by
  obtain ⟨x, hx⟩ := x
  obtain ⟨y, hy⟩ := y
  have hm := macro_returns a t op x y
  have hf := function_returns t op x y
  rw [IntTy.wrap_of_inRange hx, IntTy.wrap_of_inRange hy] at hm hf
  refine ⟨fun hslip => ⟨?_, guardedVal_inRange hx⟩, fun hslip hw hgap => ⟨_, hm, ?_⟩⟩
  · exact macroVal_eq hx hy hslip ▸ hm
  · exact functionVal_eq hx hy hw hslip hgap ▸ hf

/-- An unsigned left shift that loses a bit is not reduced. -/
theorem not_forall_reduced :
    ¬ ∀ (a : AddressBits) (t : IntTy) (op : Op) (x : t.Value) (y : (op.rightTy t).Value),
      (macroForm a t op x y).Returns (reduced t x (exact t op x y)) := by
  intro h
  have hr := h .b64 (uintT .w32) .lshiftU ⟨3, by decide⟩ ⟨31, by decide⟩
  have hm := macro_returns .b64 (uintT .w32) .lshiftU 3 31
  have he := hr.unique hm
  revert he
  decide

end SafeMath

end CLSmith
