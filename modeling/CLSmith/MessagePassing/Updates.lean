import CLSmith.Random
import Mathlib.Algebra.BigOperators.Group.List.Basic
import Mathlib.Algebra.BigOperators.Ring.List
import Mathlib.NumberTheory.Padics.PadicVal.Basic
import Mathlib.Data.Int.ModEq
import Mathlib.Tactic.LinearCombination
/-!
# The updates of the message

`StatementMessage::MakeUpdate` and what its assignments do to the fields of
the message. Its function `(x + y) * y` is meant to tell in which order two
updates came. Over the integers it does, for two different constants; in a
field of `w` bits it does as long as the powers of two that divide the
difference, and the constants of the later updates, are fewer than `w`.
-/

namespace CLSmith

namespace MessagePassing

namespace StatementMessage

/-- The compound assignments of an update. -/
inductive AssignOp
  | addAssign | mulAssign
deriving DecidableEq

/-- An assignment of a constant to a field of the message. -/
structure UpdateStm where
  field : ℕ
  op : AssignOp
  value : ℕ
deriving DecidableEq

/-- The loop of `MakeUpdate` over the random bits, at the field `idx`. -/
def updateStms (bits idx : ℕ) : Gen (List UpdateStm) :=
  if h : bits = 0 then pure []
  else if bits % 2 = 1 then do
    let y ← rndUpto 15 fun _ => false
    let rest ← updateStms (bits / 2) (idx + 1)
    return ⟨idx, .addAssign, y + 1⟩ :: ⟨idx, .mulAssign, y + 1⟩ :: rest
  else updateStms (bits / 2) (idx + 1)
termination_by bits
decreasing_by all_goals omega

/-- **`MakeUpdate`**: the statements of `update_`. One draw chooses the fields and the
constants of all of them. -/
def makeUpdate : Gen (List UpdateStm) := do
  let randomBits ← rndUpto 1024 fun _ => false
  updateStms randomBits 4

section Fields

-- the bits of each field, and the fields' values
variable (width : ℕ → ℕ) (m : ℕ → ℕ)

/-- One assignment, to a field of an unsigned type. -/
def UpdateStm.exec (a : UpdateStm) : ℕ → ℕ :=
  Function.update m a.field <| match a.op with
    | .addAssign => (m a.field + a.value) % 2 ^ width a.field
    | .mulAssign => (m a.field * a.value) % 2 ^ width a.field

/-- An update block, run. -/
def execUpdate (stms : List UpdateStm) : ℕ → ℕ :=
  stms.foldl (fun m a => a.exec width m) m

end Fields

/-- **`f(x, y)`** in a field of `w` bits: the two assignments of an update. Both wrap
around in the width of the field. -/
def update (w x y : ℕ) : ℕ := (x + y) % 2 ^ w * y % 2 ^ w

/-- The value of the field after updates with the constants `ys`. -/
def fieldValue (w x : ℕ) (ys : List ℕ) : ℕ := ys.foldl (update w) x

/-- `y` is a constant `MakeUpdate` can choose. -/
def Choosable (y : ℕ) : Prop :=
  ∃ t stms t', makeUpdate t = some (stms, t') ∧ ∃ field op, ⟨field, op, y⟩ ∈ stms

/-- **The order of the updates shows**: exchanging two adjacent ones with
different constants changes the value of the field in the end. -/
def RevealsOrder (w x : ℕ) (ys : List ℕ) : Prop :=
  ∀ pre y z suf, ys = pre ++ y :: z :: suf → y ≠ z →
    fieldValue w x (pre ++ z :: y :: suf) ≠ fieldValue w x ys

/-- The powers of two in the difference that the exchange makes, and in the
constants of the later updates, are fewer than the bits of the field. -/
def FewTwos (w : ℕ) (ys : List ℕ) : Prop :=
  ∀ (pre : List ℕ) (y z : ℕ) (suf : List ℕ), ys = pre ++ y :: z :: suf → y ≠ z →
    padicValInt 2 ((y : ℤ) - z) + padicValInt 2 ((y : ℤ) * z - y - z) +
      (suf.map (padicValNat 2)).sum < w

/-! ## What `MakeUpdate` makes -/

section Make

variable {bits idx : ℕ} {t t' : Tape} {stms : List UpdateStm}

/-- **The statements of an update**: for some of the fields from `idx` on,
each once and in their order, an addition and a multiplication with one
constant. -/
inductive Updates : ℕ → List UpdateStm → Prop
  | nil (idx : ℕ) : Updates idx []
  | skip {idx : ℕ} {stms : List UpdateStm} (h : Updates (idx + 1) stms) : Updates idx stms
  | field {idx : ℕ} {stms : List UpdateStm} (y : ℕ) (hy : 1 ≤ y ∧ y ≤ 15)
      (h : Updates (idx + 1) stms) :
      Updates idx (⟨idx, .addAssign, y⟩ :: ⟨idx, .mulAssign, y⟩ :: stms)

theorem updates_updateStms (h : updateStms bits idx t = some (stms, t')) : Updates idx stms := by
  induction bits using Nat.strong_induction_on generalizing idx t stms t' with
  | _ bits ih =>
    rw [updateStms] at h
    split at h
    · cases h
      exact .nil idx
    · rename_i hbits
      have hlt : bits / 2 < bits := by omega
      split at h
      · obtain ⟨y, t₁, hy, h⟩ := Gen.bind_eq_some.mp h
        obtain ⟨rest, t₂, hrest, h⟩ := Gen.bind_eq_some.mp h
        cases h
        have hy15 := rndUpto_lt (by omega) hy
        exact .field (y + 1) (by omega) (ih _ hlt hrest)
      · exact .skip (ih _ hlt h)

theorem updates_makeUpdate (h : makeUpdate t = some (stms, t')) : Updates 4 stms := by
  obtain ⟨bits, t₁, -, h⟩ := Gen.bind_eq_some.mp h
  exact updates_updateStms h

/-- The constants are from one to fifteen. -/
theorem Updates.value (h : Updates idx stms) {a : UpdateStm} (ha : a ∈ stms) :
    1 ≤ a.value ∧ a.value ≤ 15 := by
  induction h with
  | nil => exact absurd ha List.not_mem_nil
  | skip h ih => exact ih ha
  | field y hy h ih =>
    simp only [List.mem_cons] at ha
    rcases ha with rfl | rfl | ha
    · exact hy
    · exact hy
    · exact ih ha

/-- **Each of them can be chosen**, and no other constant. -/
theorem choosable_iff {y : ℕ} : Choosable y ↔ 1 ≤ y ∧ y ≤ 15 := by
  constructor
  · rintro ⟨t, stms, t', h, field, op, hmem⟩
    exact (updates_makeUpdate h).value hmem
  · rintro ⟨hpos, hle⟩
    have hmod : (y - 1) % 15 = y - 1 := Nat.mod_eq_of_lt (by omega)
    have hy : y - 1 + 1 = y := by omega
    refine ⟨[1, y - 1], [⟨4, .addAssign, y⟩, ⟨4, .mulAssign, y⟩], [], ?_, 4, .addAssign, by simp⟩
    refine Gen.bind_eq_some.mpr ⟨1, [y - 1], rfl, ?_⟩
    rw [updateStms, dif_neg (by omega), if_pos rfl]
    refine Gen.bind_eq_some.mpr ⟨y - 1, [], ?_, ?_⟩
    · rw [rndUpto, if_neg (by simp), hmod]
    · refine Gen.bind_eq_some.mpr ⟨[], [], ?_, ?_⟩
      · rw [updateStms, dif_pos (by omega)]
        rfl
      · rw [hy]
        rfl

/-- A field below those of the block is not touched. -/
theorem Updates.exec_of_lt (h : Updates idx stms) (width m : ℕ → ℕ) {i : ℕ} (hi : i < idx) :
    execUpdate width m stms i = m i := by
  induction h generalizing m with
  | nil => rfl
  | skip h ih => exact ih m (by omega)
  | @field idx stms y hy h ih =>
    have hne : i ≠ idx := by omega
    change execUpdate width (UpdateStm.exec width (UpdateStm.exec width m _) _) stms i = m i
    rw [ih _ (by omega), UpdateStm.exec, Function.update_of_ne hne, UpdateStm.exec,
      Function.update_of_ne hne]

/-- **An update applies `f` to a field at most once**, with a constant of
its own. -/
theorem Updates.exec (h : Updates idx stms) (width : ℕ → ℕ) (i : ℕ) :
    ∃ ys : List ℕ, ys.length ≤ 1 ∧ (∀ y ∈ ys, 1 ≤ y ∧ y ≤ 15) ∧
      ∀ m, execUpdate width m stms i = fieldValue (width i) (m i) ys := by
  induction h with
  | nil => exact ⟨[], by simp, by simp, fun m => rfl⟩
  | skip h ih => exact ih
  | @field idx stms y hy h ih =>
    by_cases hi : i = idx
    · subst hi
      refine ⟨[y], by simp, by simpa using hy, fun m => ?_⟩
      change execUpdate width (UpdateStm.exec width (UpdateStm.exec width m _) _) stms i = _
      rw [h.exec_of_lt _ _ (by omega)]
      simp [UpdateStm.exec, fieldValue, update]
    · obtain ⟨ys, hlen, hys, hval⟩ := ih
      refine ⟨ys, hlen, hys, fun m => ?_⟩
      change execUpdate width (UpdateStm.exec width (UpdateStm.exec width m _) _) stms i = _
      rw [hval, UpdateStm.exec, Function.update_of_ne hi, UpdateStm.exec, Function.update_of_ne hi]

end Make

/-! ## The difference an exchange makes -/

section Difference

variable {w x x' y z : ℕ} {ys suf : List ℕ}

/-- **Two values drift apart** by the constants they are multiplied with. -/
theorem fieldValue_sub (w x x' : ℕ) (ys : List ℕ) :
    (fieldValue w x ys : ℤ) - fieldValue w x' ys ≡ ((x : ℤ) - x') * (ys.map Nat.cast).prod
      [ZMOD 2 ^ w] := by
  have hupdate : ∀ x y : ℕ, (update w x y : ℤ) ≡ (x + y) * y [ZMOD 2 ^ w] := by
    intro x y
    unfold update
    push_cast
    exact (Int.mod_modEq _ _).trans ((Int.mod_modEq _ _).mul_right _)
  induction ys generalizing x x' with
  | nil => simp [fieldValue]
  | cons y ys ih =>
    have hstep := (ih (update w x y) (update w x' y)).trans
      (((hupdate x y).sub (hupdate x' y)).mul_right _)
    refine hstep.trans (Int.modEq_of_dvd ⟨0, ?_⟩)
    rw [List.map_cons, List.prod_cons]
    ring

/-- Two updates in the two orders. -/
theorem fieldValue_swap (w x y z : ℕ) :
    (fieldValue w x [z, y] : ℤ) - fieldValue w x [y, z] ≡
      ((y : ℤ) - z) * (-((y : ℤ) * z - y - z)) [ZMOD 2 ^ w] := by
  have hval : ∀ y z : ℕ, (fieldValue w x [y, z] : ℤ) ≡ ((x + y) * y + z) * z [ZMOD 2 ^ w] := by
    intro y z
    simp only [fieldValue, List.foldl_cons, List.foldl_nil, update]
    push_cast
    refine (Int.mod_modEq _ _).trans (((Int.mod_modEq _ _).trans ?_).mul_right _)
    exact ((Int.mod_modEq _ _).trans ((Int.mod_modEq _ _).mul_right _)).add_right _
  refine ((hval z y).sub (hval y z)).trans (Int.modEq_of_dvd ⟨0, ?_⟩)
  ring

theorem fieldValue_lt (hys : ys ≠ []) : fieldValue w x ys < 2 ^ w := by
  obtain ⟨pre, y, rfl⟩ := List.eq_nil_or_concat ys |>.resolve_left hys
  rw [List.concat_eq_append, fieldValue, List.foldl_append]
  exact Nat.mod_lt _ (by positivity)

/-- **When an exchange goes unseen**: the field holds too few bits for the
difference it makes. -/
theorem fieldValue_exchange_eq_iff (w x : ℕ) (pre : List ℕ) (y z : ℕ) (suf : List ℕ) :
    fieldValue w x (pre ++ z :: y :: suf) = fieldValue w x (pre ++ y :: z :: suf) ↔
      (2 : ℤ) ^ w ∣ ((y : ℤ) - z) * ((y : ℤ) * z - y - z) * (suf.map Nat.cast).prod := by
  have hsplit : ∀ y z, fieldValue w x (pre ++ y :: z :: suf) =
      fieldValue w (fieldValue w (fieldValue w x pre) [y, z]) suf := by
    intro y z
    simp [fieldValue]
  have hdiff := (fieldValue_sub w (fieldValue w (fieldValue w x pre) [z, y])
    (fieldValue w (fieldValue w x pre) [y, z]) suf).trans
      ((fieldValue_swap w (fieldValue w x pre) y z).mul_right _)
  rw [← hsplit, ← hsplit] at hdiff
  have hlt : ∀ y z, (fieldValue w x (pre ++ y :: z :: suf) : ℤ) < 2 ^ w := by
    intro y z
    exact_mod_cast fieldValue_lt (by simp)
  have heq : fieldValue w x (pre ++ z :: y :: suf) = fieldValue w x (pre ++ y :: z :: suf) ↔
      (2 : ℤ) ^ w ∣ fieldValue w x (pre ++ z :: y :: suf) -
        fieldValue w x (pre ++ y :: z :: suf) := by
    constructor
    · intro h
      rw [h, sub_self]
      exact dvd_zero _
    · intro h
      have hmod := (Int.modEq_iff_dvd.mpr h).eq
      rw [Int.emod_eq_of_lt (by positivity) (hlt y z),
        Int.emod_eq_of_lt (by positivity) (hlt z y)] at hmod
      exact_mod_cast hmod.symm
  rw [heq, hdiff.dvd_iff]
  have hneg : ((y : ℤ) - z) * (-((y : ℤ) * z - y - z)) * (suf.map Nat.cast).prod =
      -(((y : ℤ) - z) * ((y : ℤ) * z - y - z) * (suf.map Nat.cast).prod) := by ring
  rw [hneg, dvd_neg]

/-- The exchange of two different constants makes a difference over the
integers. -/
theorem difference_ne_zero (h : y ≠ z) :
    ((y : ℤ) * z - y - z) ≠ 0 := by
  intro h0
  have hone : ((y : ℤ) - 1) * (z - 1) = 1 := by linear_combination h0
  rcases Int.mul_eq_one_iff_eq_one_or_neg_one.mp hone with ⟨h1, h2⟩ | ⟨h1, h2⟩ <;> omega

theorem padicValInt_prod (hsuf : ∀ y ∈ suf, 1 ≤ y) :
    padicValInt 2 (suf.map (Nat.cast : ℕ → ℤ)).prod = (suf.map (padicValNat 2)).sum := by
  induction suf with
  | nil => simp
  | cons y suf ih =>
    have hy := hsuf y List.mem_cons_self
    have hrest := fun u hu => hsuf u (List.mem_cons_of_mem _ hu)
    have hprod : (suf.map (Nat.cast : ℕ → ℤ)).prod ≠ 0 := by
      rw [Ne, List.prod_eq_zero_iff, List.mem_map]
      rintro ⟨u, hu, h0⟩
      have := hrest u hu
      omega
    rw [List.map_cons, List.prod_cons, padicValInt.mul (by omega) hprod, ih hrest, List.map_cons,
      List.sum_cons, padicValInt.of_nat]

end Difference

/-- **When the order of the updates shows**: of constants that `MakeUpdate` can
choose, exactly where an exchange makes a difference with fewer powers of two than the
field has bits, those of the constants behind it included. -/
theorem revealsOrder_iff (w x : ℕ) (ys : List ℕ) (hys : ∀ y ∈ ys, Choosable y) :
    RevealsOrder w x ys ↔ FewTwos w ys := by
  unfold RevealsOrder FewTwos
  refine forall_congr' fun pre => forall_congr' fun y => forall_congr' fun z =>
    forall_congr' fun suf => forall_congr' fun heq => forall_congr' fun hne => ?_
  have hpos : ∀ u ∈ ys, 1 ≤ u := fun u hu => (choosable_iff.mp (hys u hu)).1
  subst heq
  simp only [List.mem_append, List.mem_cons] at hpos
  have hsub : ((y : ℤ) - z) ≠ 0 := by omega
  have hdiff := difference_ne_zero hne
  have hprod : (suf.map (Nat.cast : ℕ → ℤ)).prod ≠ 0 := by
    rw [Ne, List.prod_eq_zero_iff, List.mem_map]
    rintro ⟨u, hu, h0⟩
    have := hpos u (by tauto)
    omega
  rw [Ne, fieldValue_exchange_eq_iff,
    show (2 : ℤ) ^ w = ((2 : ℕ) : ℤ) ^ w by norm_num, padicValInt_dvd_iff,
    padicValInt.mul (mul_ne_zero hsub hdiff) hprod, padicValInt.mul hsub hdiff,
    padicValInt_prod fun u hu => hpos u (by tauto)]
  simp only [mul_eq_zero, hsub, hdiff, hprod, or_self, false_or, not_le]

/-- Three and five in a byte, then five times eight: still seen. -/
theorem revealsOrder_iff_byte : RevealsOrder 8 0 [3, 5] ↔ FewTwos 8 [3, 5] :=
  revealsOrder_iff 8 0 [3, 5] fun y hy => by
    rw [choosable_iff]
    simp at hy
    omega

/-- **A byte does not tell four and twelve apart**, whichever came first. -/
theorem not_revealsOrder_byte :
    ¬ ∀ w ∈ [8, 16, 32, 64], ∀ (x : ℕ) (ys : List ℕ), (∀ y ∈ ys, Choosable y) →
      RevealsOrder w x ys := by
  intro hall
  refine hall 8 (by simp) 0 [4, 12] (fun y hy => ?_) [] 4 12 [] rfl (by omega) (by decide)
  rw [choosable_iff]
  simp at hy
  omega

end StatementMessage

end MessagePassing

end CLSmith
