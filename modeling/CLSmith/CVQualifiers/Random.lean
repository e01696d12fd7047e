import CLSmith.CVQualifiers.Safety
/-!
# Qualifiers made from others match

A new variable or function gets random qualifiers made from those asked for.
Whether they match what was asked for is a matter of what is taken away from
them afterwards: the `const` of what is to be written, the `volatile` of what
is not free of side effects, and every `volatile` where none is wanted.
-/

namespace CLSmith

namespace CVQualifiers

variable {o : QualifierOptions} {q r : CVQualifiers} {L E xs ys : List Bool}
variable {f : ℕ → ℕ → Bool → Bool → Bool} {i k : ℕ} {b : Bool}

/-! ## Levels by position -/

theorem strictLevels_iff (hlen : L.length = E.length) :
    strictLevels L E = true ↔ ∀ i < L.length,
      (i + 2 < L.length → L.getD i false = E.getD i false) ∧
        (E.getD i false = true → L.getD i false = true) := by
  induction L generalizing E with
  | nil => simp [strictLevels]
  | cons x L ih =>
    cases E with
    | nil => simp at hlen
    | cons y E =>
      simp only [List.length_cons, Nat.add_right_cancel_iff] at hlen
      have hfirst : (!(decide (2 < L.length + 1) && x != y) && !(y && !x)) = true ↔
          ((0 + 2 < L.length + 1 → x = y) ∧ (y = true → x = true)) := by
        by_cases h2 : 2 < L.length + 1 <;> cases x <;> cases y <;> simp [h2]
      rw [strictLevels, Bool.and_eq_true, hfirst, ih hlen]
      constructor
      · rintro ⟨h0, hrest⟩ i hi
        cases i with
        | zero => exact h0
        | succ i =>
          simp only [List.length_cons, List.getD_cons_succ] at hi ⊢
          have := hrest i (by omega)
          exact ⟨fun hlt => this.1 (by omega), this.2⟩
      · intro h
        refine ⟨h 0 (by simp), fun i hi => ?_⟩
        have := h (i + 1) (by simpa using hi)
        simp only [List.length_cons, List.getD_cons_succ] at this
        exact ⟨fun hlt => this.1 (by omega), this.2⟩

@[simp] theorem length_mapLevels : (mapLevels f k xs ys).length = xs.length := by
  induction xs generalizing k ys with
  | nil => rfl
  | cons x xs ih => rw [mapLevels, List.length_cons, ih, List.length_cons]

theorem getD_mapLevels (hi : i < xs.length) : (mapLevels f k xs ys).getD i false =
    f (k + i) (xs.length - i) (xs.getD i false) (ys.getD i false) := by
  induction xs generalizing k ys i with
  | nil => exact absurd hi (Nat.not_lt_zero i)
  | cons x xs ih =>
    cases i with
    | zero => cases ys <;> rfl
    | succ i =>
      have hlen : (x :: xs).length - (i + 1) = xs.length - i := by simp
      rw [mapLevels, List.getD_cons_succ, ih (by simpa using hi), hlen, List.getD_cons_succ,
        show k + 1 + i = k + (i + 1) by omega]
      cases ys <;> simp

@[simp] theorem length_makeScalar : (makeScalar b L).length = L.length := by
  unfold makeScalar
  split
  · rfl
  · split <;> simp

theorem getD_makeScalar (hi : i < L.length) :
    (makeScalar b L).getD i false = (L.getD i false && (b || decide (i = 0))) := by
  unfold makeScalar
  cases b with
  | true => simp
  | false =>
    cases L with
    | nil => exact absurd hi (Nat.not_lt_zero i)
    | cons x L =>
      cases i with
      | zero => simp
      | succ i =>
        have hi' : i < L.length := by simpa using hi
        simp [List.getD, hi']

theorem getD_set_last (hi : i < L.length) : (L.set (L.length - 1) false).getD i false =
    (L.getD i false && decide (i + 1 < L.length)) := by
  rw [List.getD, List.getD, List.getElem?_set]
  by_cases hlast : L.length - 1 = i
  · have : ¬ i + 1 < L.length := by omega
    simp [hlast, hi, this]
  · have : i + 1 < L.length := by omega
    simp [hlast, this]

theorem getD_map_false : (L.map fun _ => false).getD i false = false := by
  rw [List.getD, List.getElem?_map]
  cases L[i]? <;> rfl

theorem head?_eq_getD (h : 0 < L.length) : L.head? = some (L.getD 0 false) := by
  cases L with
  | nil => exact absurd h (by simp)
  | cons a L => rfl

/-- **`stricter_than`, position by position.** -/
theorem stricterThan_iff (hpos : 0 < q.isConsts.length)
    (hq : q.isConsts.length = q.isVolatiles.length) (hc : r.isConsts.length = q.isConsts.length)
    (hv : r.isVolatiles.length = q.isConsts.length) :
    q.stricterThan r = true ↔
      (∀ i < q.isConsts.length,
        (i + 2 < q.isConsts.length → q.isConsts.getD i false = r.isConsts.getD i false) ∧
          (r.isConsts.getD i false = true → q.isConsts.getD i false = true)) ∧
      (1 < q.isConsts.length → q.isVolatiles.getD 0 false = r.isVolatiles.getD 0 false) ∧
      ∀ i < q.isConsts.length,
        (i + 2 < q.isConsts.length → q.isVolatiles.getD i false = r.isVolatiles.getD i false) ∧
          (r.isVolatiles.getD i false = true → q.isVolatiles.getD i false = true) := by
  have hconst := strictLevels_iff hc.symm
  have hvol := strictLevels_iff (hq.symm.trans hv.symm)
  rw [← hq] at hvol
  unfold stricterThan
  simp only [Bool.and_eq_true, decide_eq_true_eq, hconst, hvol,
    head?_eq_getD (hq ▸ hpos), head?_eq_getD (hv.symm ▸ hpos), hc, hv, hq.symm, true_and]
  rw [and_assoc]
  refine and_congr_right fun _ => and_congr_left fun _ => ?_
  by_cases h1 : 1 < q.isConsts.length <;>
    cases q.isVolatiles.getD 0 false <;> cases r.isVolatiles.getD 0 false <;> simp [h1]

/-! ## What is made -/

variable {loose noVolatile sideEffectFree : Bool} {access : Access}
variable {volatileCoin constCoin : ℕ → Bool} {len : ℕ}

/-- A `const` that was drawn at a level is kept: the options have it so, and it is not
that of what is to be written. -/
def keepsConst (o : QualifierOptions) (access : Access) (len i : ℕ) : Bool :=
  (o.constPointers || decide (i = 0)) && (decide (access = .read) || decide (i + 1 < len))

/-- A `volatile` that was drawn at a level is kept: one is wanted, the options have it
so, and it is not the last one where there may be no side effects. -/
def keepsVolatile (o : QualifierOptions) (noVolatile sideEffectFree : Bool) (len i : ℕ) : Bool :=
  !noVolatile && (o.volatilePointers || decide (i = 0)) &&
    (sideEffectFree || decide (i + 1 < len))

/-- The consts that are drawn. -/
def drawnConsts (o : QualifierOptions) (q : CVQualifiers) (looser : Bool) (coin : ℕ → Bool) :
    List Bool :=
  if looser then q.randomLooserConsts o coin else q.randomStricterConsts o coin

/-- The volatiles that are drawn. -/
def drawnVolatiles (o : QualifierOptions) (q : CVQualifiers) (looser : Bool) (coin : ℕ → Bool) :
    List Bool :=
  if looser then q.randomLooserVolatiles o coin else q.randomStricterVolatiles o coin

theorem length_drawnConsts {looser : Bool} :
    (q.drawnConsts o looser constCoin).length = q.isConsts.length := by
  unfold drawnConsts randomLooserConsts randomStricterConsts
  split <;> split <;> simp

theorem length_drawnVolatiles {looser : Bool} :
    (q.drawnVolatiles o looser volatileCoin).length = q.isVolatiles.length := by
  unfold drawnVolatiles randomLooserVolatiles randomStricterVolatiles
  split <;> split <;> simp

/-- **A level of what is made** is what was drawn, as far as it is kept. -/
theorem levels_made (hq : q.Sane)
    (hr : q.randomQualifiers o loose noVolatile access sideEffectFree volatileCoin constCoin = r) :
    (r.isConsts.length = q.isConsts.length ∧ r.isVolatiles.length = q.isConsts.length) ∧
    ∀ i < q.isConsts.length,
      r.isConsts.getD i false =
        ((q.drawnConsts o (loose || !q.acceptStricter) constCoin).getD i false &&
          keepsConst o access q.isConsts.length i) ∧
      r.isVolatiles.getD i false =
        ((q.drawnVolatiles o (loose || !q.acceptStricter) volatileCoin).getD i false &&
          keepsVolatile o noVolatile sideEffectFree q.isConsts.length i) := by
  subst hr
  have hw : ¬ q.wildcard = true := by simp [hq.wildcard]
  have hsame := hq.same
  -- of any list drawn: what is done to it afterwards clears a level or leaves it
  have hconsts : ∀ B : List Bool, B.length = q.isConsts.length → ∀ i < q.isConsts.length,
      (if access = .write then
          (makeScalar o.constPointers B).set ((makeScalar o.constPointers B).length - 1) false
        else makeScalar o.constPointers B).getD i false =
      (B.getD i false && keepsConst o access q.isConsts.length i) := by
    intro B hB i hi
    unfold keepsConst
    cases access with
    | read =>
      rw [if_neg (by decide), getD_makeScalar (hB ▸ hi)]
      simp
    | write =>
      have hlen : (makeScalar o.constPointers B).length = q.isConsts.length := by simp [hB]
      rw [if_pos rfl, getD_set_last (hlen ▸ hi), getD_makeScalar (hB ▸ hi), hlen]
      simp [Bool.and_assoc]
  have hvolatiles : ∀ B : List Bool, B.length = q.isConsts.length → ∀ i < q.isConsts.length,
      (makeScalar o.volatilePointers (if noVolatile = true then q.isVolatiles.map fun _ => false
        else if sideEffectFree = true then B else B.set (B.length - 1) false)).getD i false =
      (B.getD i false && keepsVolatile o noVolatile sideEffectFree q.isConsts.length i) := by
    intro B hB i hi
    unfold keepsVolatile
    cases noVolatile with
    | true =>
      rw [if_pos rfl, getD_makeScalar (by rw [List.length_map, ← hsame]; exact hi), getD_map_false]
      simp
    | false =>
      rw [if_neg Bool.false_ne_true]
      cases sideEffectFree with
      | true =>
        rw [if_pos rfl, getD_makeScalar (hB ▸ hi)]
        simp
      | false =>
        rw [if_neg Bool.false_ne_true, getD_makeScalar (by rw [List.length_set, hB]; exact hi),
          getD_set_last (hB ▸ hi), hB]
        cases B.getD i false <;> cases o.volatilePointers <;> simp [Bool.and_comm]
  have hclen : (q.drawnConsts o (loose || !q.acceptStricter) constCoin).length =
      q.isConsts.length := length_drawnConsts
  have hvlen : (q.drawnVolatiles o (loose || !q.acceptStricter) volatileCoin).length =
      q.isConsts.length := length_drawnVolatiles.trans hsame.symm
  unfold randomQualifiers
  rw [if_neg hw]
  refine ⟨⟨?_, ?_⟩, fun i hi => ⟨hconsts _ hclen i hi, hvolatiles _ hvlen i hi⟩⟩
  · change (if access = .write then _ else _ : List Bool).length = _
    have hB : (makeScalar o.constPointers
        (q.drawnConsts o (loose || !q.acceptStricter) constCoin)).length = q.isConsts.length := by
      simp [hclen]
    split
    · rw [List.length_set]
      exact hB
    · exact hB
  · change (makeScalar _ (if noVolatile = true then _ else _)).length = _
    rw [length_makeScalar]
    split
    · rw [List.length_map, hsame]
    · change (if sideEffectFree = true then q.drawnVolatiles o _ _ else _).length = _
      split
      · exact hvlen
      · rw [List.length_set]
        exact hvlen

/-- **The consts that are drawn**: none but those asked for in exact mode, otherwise
fewer or more, though not where two more levels follow. -/
theorem drawnConsts_spec (o : QualifierOptions) (looser : Bool) (constCoin : ℕ → Bool)
    (hi : i < q.isConsts.length) :
    (o.matchExactQualifiers = true ∨ i + 2 < q.isConsts.length →
      (q.drawnConsts o looser constCoin).getD i false = q.isConsts.getD i false) ∧
    (if looser = true then
        (q.drawnConsts o looser constCoin).getD i false = true → q.isConsts.getD i false = true
      else
        q.isConsts.getD i false = true →
          (q.drawnConsts o looser constCoin).getD i false = true) := by
  unfold drawnConsts randomLooserConsts randomStricterConsts
  cases hexact : o.matchExactQualifiers with
  | true => cases looser <;> simp
  | false =>
    simp only [Bool.false_eq_true, if_false, false_or]
    have hdepth : i + 2 < q.isConsts.length ↔ 2 < q.isConsts.length - i := by omega
    rw [hdepth]
    cases looser with
    | true =>
      simp only [if_true, getD_mapLevels hi]
      exact ⟨fun h2 => by simp [h2], by cases q.isConsts.getD i false <;> simp⟩
    | false =>
      simp only [Bool.false_eq_true, if_false, getD_mapLevels hi]
      exact ⟨fun h2 => by simp [h2], by cases q.isConsts.getD i false <;> simp⟩

/-- **The volatiles that are drawn**, as far as pointers may have them: the first one of a
pointer is drawn as it was asked for, too. -/
theorem drawnVolatiles_spec (o : QualifierOptions) (looser : Bool) (volatileCoin : ℕ → Bool)
    (hsame : q.isConsts.length = q.isVolatiles.length) (hi : i < q.isConsts.length) :
    (o.matchExactQualifiers = true ∨ (i = 0 ∧ 1 < q.isConsts.length) ∨ i + 2 < q.isConsts.length →
      ((q.drawnVolatiles o looser volatileCoin).getD i false &&
        (o.volatilePointers || decide (i = 0))) =
      (q.isVolatiles.getD i false && (o.volatilePointers || decide (i = 0)))) ∧
    (if looser = true then (q.drawnVolatiles o looser volatileCoin).getD i false = true →
        q.isVolatiles.getD i false = true
      else (q.isVolatiles.getD i false && (o.volatilePointers || decide (i = 0))) = true →
        (q.drawnVolatiles o looser volatileCoin).getD i false = true) := by
  have hi' : i < q.isVolatiles.length := hsame ▸ hi
  unfold drawnVolatiles randomLooserVolatiles randomStricterVolatiles
  cases hexact : o.matchExactQualifiers with
  | true => cases looser <;> simp +contextual
  | false =>
    simp only [Bool.false_eq_true, if_false, false_or, ← hsame]
    have hdepth : i + 2 < q.isConsts.length ↔ 2 < q.isVolatiles.length - i := by omega
    rw [hdepth]
    cases looser with
    | true =>
      simp only [if_true, getD_makeScalar (length_mapLevels.symm ▸ hi'), getD_mapLevels hi',
        Nat.zero_add]
      constructor
      · rintro (⟨rfl, h1⟩ | h2)
        · simp [h1]
        · simp [h2]
      · cases q.isVolatiles.getD i false <;> simp
    | false =>
      simp only [Bool.false_eq_true, if_false, getD_makeScalar (length_mapLevels.symm ▸ hi'),
        getD_mapLevels hi', Nat.zero_add]
      constructor
      · rintro (⟨rfl, h1⟩ | h2)
        · simp [h1]
        · simp [h2]
      · cases q.isVolatiles.getD i false <;> simp

/-! ## Whether it matches -/

/-- Two vectors are equal if all their levels are. -/
theorem eq_iff_getD (hlen : L.length = E.length) :
    L = E ↔ ∀ i < L.length, L.getD i false = E.getD i false := by
  constructor
  · rintro rfl i -
    rfl
  · intro h
    refine List.ext_getElem hlen fun i hi hi' => ?_
    simpa [List.getD, hi, hi'] using h i hi

/-- A level of the consts made, against that asked for. -/
theorem const_level (hq : q.Sane)
    (hr : q.randomQualifiers o loose noVolatile access sideEffectFree volatileCoin constCoin = r)
    (hi : i < q.isConsts.length) :
    (o.matchExactQualifiers = true ∨ i + 2 < q.isConsts.length →
      (q.isConsts.getD i false = r.isConsts.getD i false ↔
        (q.isConsts.getD i false = true → keepsConst o access q.isConsts.length i = true))) ∧
    ((loose || !q.acceptStricter) = true →
      r.isConsts.getD i false = true → q.isConsts.getD i false = true) ∧
    ((loose || !q.acceptStricter) = false →
      ((q.isConsts.getD i false = true → r.isConsts.getD i false = true) ↔
        (q.isConsts.getD i false = true → keepsConst o access q.isConsts.length i = true))) := by
  have hdrawn := drawnConsts_spec o (loose || !q.acceptStricter) constCoin hi
  rw [((levels_made hq hr).2 i hi).1]
  refine ⟨fun hsame => ?_, fun hl h => ?_, fun hl => ?_⟩
  · rw [hdrawn.1 hsame]
    cases q.isConsts.getD i false <;> simp
  · have hspec := hdrawn.2
    rw [if_pos hl] at hspec
    exact hspec (Bool.and_eq_true_iff.mp h).1
  · have hspec := hdrawn.2
    rw [if_neg (by simp [hl])] at hspec
    rw [Bool.and_eq_true]
    exact ⟨fun h hc => (h hc).2, fun h hc => ⟨hspec hc, h hc⟩⟩

/-- A level of the volatiles made, against that asked for. -/
theorem volatile_level (hq : q.Sane)
    (hr : q.randomQualifiers o loose noVolatile access sideEffectFree volatileCoin constCoin = r)
    (hi : i < q.isConsts.length) :
    (o.matchExactQualifiers = true ∨ (i = 0 ∧ 1 < q.isConsts.length) ∨ i + 2 < q.isConsts.length →
      (q.isVolatiles.getD i false = r.isVolatiles.getD i false ↔
        (q.isVolatiles.getD i false = true →
          keepsVolatile o noVolatile sideEffectFree q.isConsts.length i = true))) ∧
    ((loose || !q.acceptStricter) = true →
      r.isVolatiles.getD i false = true → q.isVolatiles.getD i false = true) ∧
    ((loose || !q.acceptStricter) = false →
      ((q.isVolatiles.getD i false = true → r.isVolatiles.getD i false = true) ↔
        (q.isVolatiles.getD i false = true →
          keepsVolatile o noVolatile sideEffectFree q.isConsts.length i = true))) := by
  have hdrawn := drawnVolatiles_spec o (loose || !q.acceptStricter) volatileCoin hq.same hi
  -- where a `volatile` is kept at all, the options have it so
  have hpointers : keepsVolatile o noVolatile sideEffectFree q.isConsts.length i = true →
      (o.volatilePointers || decide (i = 0)) = true := by
    intro h
    simp only [keepsVolatile, Bool.and_eq_true] at h
    exact h.1.2
  rw [((levels_made hq hr).2 i hi).2]
  refine ⟨fun hsame => ?_, fun hl h => ?_, fun hl => ?_⟩
  · have heq := hdrawn.1 hsame
    cases hk : keepsVolatile o noVolatile sideEffectFree q.isConsts.length i with
    | false => cases q.isVolatiles.getD i false <;> simp
    | true =>
      rw [hpointers hk, Bool.and_true, Bool.and_true] at heq
      rw [heq, Bool.and_true]
      simp
  · have hspec := hdrawn.2
    rw [if_pos hl] at hspec
    exact hspec (Bool.and_eq_true_iff.mp h).1
  · have hspec := hdrawn.2
    rw [if_neg (by simp [hl])] at hspec
    rw [Bool.and_eq_true]
    refine ⟨fun h hv => (h hv).2, fun h hv => ⟨hspec ?_, h hv⟩⟩
    rw [hv, hpointers (h hv)]
    rfl

/-- **What is made matches what was asked for** exactly when there is one level only, or
nothing that is needed was taken away. Stricter qualifiers, and in exact mode any, need
all of what was asked for; looser ones need the levels that two more follow, and of the
`volatile`s the first. -/
theorem randomQualifiers_isMatch_iff (hq : q.Sane) :
    CVQualifiers.isMatch o { q with acceptStricter := q.acceptStricter && !loose }
        (q.randomQualifiers o loose noVolatile access sideEffectFree volatileCoin constCoin) =
          true ↔
      (o.matchExactQualifiers = false ∧ q.isConsts.length = 1) ∨
      ∀ i < q.isConsts.length,
        (q.isConsts.getD i false = true →
          (o.matchExactQualifiers = true ∨ (loose || !q.acceptStricter) = false ∨
            i + 2 < q.isConsts.length) → keepsConst o access q.isConsts.length i = true) ∧
        (q.isVolatiles.getD i false = true →
          (o.matchExactQualifiers = true ∨ (loose || !q.acceptStricter) = false ∨ i = 0 ∨
            i + 2 < q.isConsts.length) →
          keepsVolatile o noVolatile sideEffectFree q.isConsts.length i = true) := by
  have hw := hq.wildcard
  have hpos := hq.pos
  obtain ⟨r, hr⟩ : ∃ r, q.randomQualifiers o loose noVolatile access sideEffectFree volatileCoin
      constCoin = r := ⟨_, rfl⟩
  rw [hr]
  obtain ⟨⟨hc, hv⟩, -⟩ := levels_made hq hr
  have hconst : ∀ i < q.isConsts.length, _ := fun i hi => const_level hq hr hi
  have hvolatile : ∀ i < q.isConsts.length, _ := fun i hi => volatile_level hq hr hi
  unfold isMatch
  simp only [hw, Bool.false_eq_true, if_false, hc]
  -- in exact mode the levels are compared for equality, else by `stricter_than`
  cases hexact : o.matchExactQualifiers with
  | true =>
    rw [if_pos rfl, Bool.and_eq_true, decide_eq_true_eq, decide_eq_true_eq,
      eq_iff_getD hc.symm, eq_iff_getD (hq.same.symm.trans hv.symm), ← hq.same]
    simp only [Bool.true_eq_false, false_and, false_or, true_or, forall_const]
    constructor
    · rintro ⟨hcs, hvs⟩ i hi
      exact ⟨((hconst i hi).1 (.inl hexact)).mp (hcs i hi),
        ((hvolatile i hi).1 (.inl hexact)).mp (hvs i hi)⟩
    · intro h
      exact ⟨fun i hi => ((hconst i hi).1 (.inl hexact)).mpr (h i hi).1,
        fun i hi => ((hvolatile i hi).1 (.inl hexact)).mpr (h i hi).2⟩
  | false =>
    rw [if_neg Bool.false_ne_true]
    by_cases h1 : q.isConsts.length = 1
    · simp [h1]
    have h1' : 1 < q.isConsts.length := by omega
    rw [if_neg (by simp [h1])]
    simp only [h1, and_false, false_or, Bool.false_eq_true]
    -- which of the two has to be the stricter one
    cases hl : loose || !q.acceptStricter with
    | true =>
      have hacc : (q.acceptStricter && !loose) = false := by
        cases loose <;> cases ha : q.acceptStricter <;> simp [ha] at hl ⊢
      simp only [hacc, Bool.not_false, Bool.true_and, Bool.false_and, Bool.or_false,
        Bool.true_eq_false, false_or]
      change q.stricterThan _ = true ↔ _
      rw [stricterThan_iff hpos hq.same hc hv]
      constructor
      · rintro ⟨hcs, hfirst, hvs⟩ i hi
        refine ⟨fun hci h2 => ((hconst i hi).1 (.inr h2)).mp ((hcs i hi).1 h2) hci,
          fun hvi hkeep => ?_⟩
        rcases hkeep with rfl | h2
        · exact ((hvolatile 0 hi).1 (.inr (.inl ⟨rfl, h1'⟩))).mp (hfirst h1') hvi
        · exact ((hvolatile i hi).1 (.inr (.inr h2))).mp ((hvs i hi).1 h2) hvi
      · intro h
        refine ⟨fun i hi => ⟨fun h2 => ?_, (hconst i hi).2.1 hl⟩, fun _ => ?_,
          fun i hi => ⟨fun h2 => ?_, (hvolatile i hi).2.1 hl⟩⟩
        · exact ((hconst i hi).1 (.inr h2)).mpr fun hci => (h i hi).1 hci h2
        · exact ((hvolatile 0 hpos).1 (.inr (.inl ⟨rfl, h1'⟩))).mpr fun hvi =>
            (h 0 hpos).2 hvi (.inl rfl)
        · exact ((hvolatile i hi).1 (.inr (.inr h2))).mpr fun hvi => (h i hi).2 hvi (.inr h2)
    | false =>
      have hacc : (q.acceptStricter && !loose) = true := by
        cases loose <;> cases ha : q.acceptStricter <;> simp [ha] at hl ⊢
      simp only [hacc, Bool.not_true, Bool.true_and, Bool.false_and, Bool.false_or, true_or,
        forall_const]
      change CVQualifiers.stricterThan _ q = true ↔ _
      rw [stricterThan_iff (hc.symm ▸ hpos) (hc.trans hv.symm) hc.symm
        (hq.same.symm.trans hc.symm)]
      simp only [hc]
      constructor
      · rintro ⟨hcs, -, hvs⟩ i hi
        exact ⟨((hconst i hi).2.2 hl).mp (hcs i hi).2, ((hvolatile i hi).2.2 hl).mp (hvs i hi).2⟩
      · intro h
        refine ⟨fun i hi => ⟨fun h2 => ?_, ((hconst i hi).2.2 hl).mpr (h i hi).1⟩, fun _ => ?_,
          fun i hi => ⟨fun h2 => ?_, ((hvolatile i hi).2.2 hl).mpr (h i hi).2⟩⟩
        · exact (((hconst i hi).1 (.inr h2)).mpr (h i hi).1).symm
        · exact (((hvolatile 0 hpos).1 (.inr (.inl ⟨rfl, h1'⟩))).mpr (h 0 hpos).2).symm
        · exact (((hvolatile i hi).1 (.inr (.inr h2))).mpr (h i hi).2).symm

/-- A pointer, itself volatile, where stricter qualifiers are wanted but no side effects. -/
def volatilePointer : CVQualifiers := ⟨false, true, [true, false], [false, true]⟩

/-- In exact mode nothing made from them matches: the last `const` is taken away. -/
theorem randomQualifiers_isMatch_pointer :
    volatilePointer.isMatch { matchExactQualifiers := true }
      (volatilePointer.randomQualifiers { matchExactQualifiers := true } false false .read false
        (fun _ => true) fun _ => true) = true ↔ False := by
  refine Iff.trans (@randomQualifiers_isMatch_iff { matchExactQualifiers := true } volatilePointer
    false false false .read (fun _ => true) (fun _ => true) ⟨rfl, by decide, rfl⟩) ?_
  decide

end CVQualifiers

end CLSmith
