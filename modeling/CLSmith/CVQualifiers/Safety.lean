import CLSmith.Common.Events
import CLSmith.CVQualifiers
import Mathlib.Logic.Function.Basic
/-!
# No way around a qualifier

Pointers are set by initialisers, by parameters and by assignments, each only
where the qualifiers match. Then no chain of dereferences sees a `const` or a
`volatile` variable without its qualifier, in any state a program of such
steps reaches: what the generator checks on the expression holds of the
variable it stands for.
-/

namespace CLSmith

namespace CVQualifiers

/-! ## Memory -/

/-- The variables there are, with their qualifiers, and where pointers point. -/
structure Memory where
  qfer : ℕ → CVQualifiers := fun _ => {}
  next : ℕ := 0
  target : ℕ → Option ℕ := fun _ => none

namespace Memory

variable (M : Memory)

/-- How many levels of qualifiers a variable has: one more than its type has `*`s. -/
def size (v : ℕ) : ℕ := (M.qfer v).isConsts.length

/-- What `**..v` is. -/
def deref (v : ℕ) : ℕ → Option ℕ
  | 0 => some v
  | k + 1 => (deref v k).bind M.target

/-- What an `ExpressionVariable` with its indirect level yields: where it points, if
it is a pointer and not null. -/
def value (v : ℕ) (level : ℤ) : Option (Option ℕ) :=
  if level < 0 then some (some v) else (M.deref v level.toNat).map M.target

/-- A variable of so many levels is set; only pointers point. -/
def store (v n : ℕ) (p : Option ℕ) : Memory :=
  if n < 2 then M else { M with target := Function.update M.target v p }

end Memory

/-- **What a program does with pointers.** In an assignment the left side is `v` with
`k` dereferences, and the right side `w` with a level. -/
inductive Event
  /-- A variable comes into being. -/
  | declare (q : CVQualifiers)
  /-- An initialiser, an argument or a return value: `v` is set from `w`. -/
  | pass (v w : ℕ)
  /-- `StatementAssign::make_random` on its own: the left side is to match the right. -/
  | assign (v k w : ℕ) (level : ℤ) (noVolatile restricted sideEffectFree : Bool)
  /-- `StatementAssign::make_random` in an expression: both sides match what is
  asked for, the left one exactly. -/
  | assignIn (q : CVQualifiers) (v k w : ℕ) (noVolatile restricted sideEffectFree : Bool)
  /-- A constant is assigned. -/
  | assignConstant (v k : ℕ)

/-- The qualifiers the left side of an assignment is asked to match: without the
`volatile` for some operators, and restricted unless a pointer to dereference is
looked for. -/
def lhsQualifiers (q : CVQualifiers) (noVolatile restricted sideEffectFree : Bool) :
    CVQualifiers :=
  let q := { q with acceptStricter := true }
  let q := if noVolatile then q.setVolatile false else q
  if restricted then q.restrict .write sideEffectFree else q

/-- `v` with `k` dereferences can be written, as far as its qualifiers go. -/
def Memory.Writable (M : Memory) (v k n : ℕ) : Prop :=
  v < M.next ∧ n + k = M.size v ∧ (M.qfer v).isConstAfterDeref k = some false

instance (M : Memory) (v k n : ℕ) : Decidable (M.Writable v k n) :=
  inferInstanceAs (Decidable (_ ∧ _ ∧ _))

/-- The left side of so many levels is set. -/
def Memory.write (M : Memory) (v k n : ℕ) (p : Option (Option ℕ)) : Option Memory :=
  p.bind fun p => (M.deref v k).map fun ob => M.store ob n p

/-- **One event**, where the generator lets it happen. What is assigned or passed has
to match in `match_indirect`, and the left side of an assignment may not be `const`. -/
def step (o : QualifierOptions) (M : Memory) : Event → Option Memory
  | .declare q =>
    if q.wildcard = false ∧ 0 < q.isConsts.length ∧
        q.isConsts.length = q.isVolatiles.length then
      some { M with qfer := Function.update M.qfer M.next q, next := M.next + 1 }
    else none
  | .pass v w =>
    if v < M.next ∧ w < M.next ∧
        { M.qfer v with acceptStricter := false }.matchIndirect o (M.qfer w) = true then
      M.write v 0 (M.size v) (M.value w (M.size w - M.size v))
    else none
  | .assign v k w level noVolatile restricted sideEffectFree =>
    match (M.qfer w).indirectQualifiers level with
    | none => none
    | some e =>
      if w < M.next ∧ M.Writable v k e.isConsts.length ∧
          (lhsQualifiers e noVolatile restricted sideEffectFree).matchIndirect o (M.qfer v) = true
      then M.write v k e.isConsts.length (M.value w level)
      else none
  | .assignIn q v k w noVolatile restricted sideEffectFree =>
    if q.wildcard = false ∧ q.acceptStricter = false ∧
        q.isConsts.length = q.isVolatiles.length ∧ w < M.next ∧
        q.matchIndirect o (M.qfer w) = true ∧ M.Writable v k q.isConsts.length ∧
        (lhsQualifiers q noVolatile restricted sideEffectFree).matchIndirect
          { o with matchExactQualifiers := true } (M.qfer v) = true then
      M.write v k q.isConsts.length (M.value w (M.size w - q.isConsts.length))
    else none
  | .assignConstant v k =>
    if M.Writable v k (M.size v - k) then M.write v k (M.size v - k) (some none) else none

/-- **Programs**: any events, one after the other. Whether a statement of the
generated program is reached at all plays no part. -/
def system (o : QualifierOptions) : Common.System Memory := Common.eventSystem (step o) {}

/-! ## Vectors of levels -/

section Levels

variable {L E D D' : List Bool} {b : Bool}

/-- **`L` is as strict as `E`** as far as C demands it of pointers: the same below the
first two levels, and at least as strict at the second. -/
def Stricter (L E : List Bool) : Prop :=
  ∃ rest m w m' w', L = rest ++ [m, w] ∧ E = rest ++ [m', w'] ∧ (m' = true → m = true)

/-- A pointer with the levels `L` may point to a variable with the levels `D`. -/
def Over (L D : List Bool) : Prop :=
  ∃ rest m w d, L = rest ++ [m, w] ∧ D = rest ++ [d] ∧ (d = true → m = true)

/-- An expression with the levels `L` may stand for a variable with the levels `D`. -/
def Sees (L D : List Bool) : Prop :=
  ∃ rest h d, L = rest ++ [h] ∧ D = rest ++ [d] ∧ (d = true → h = true)

theorem Stricter.refl (h : 2 ≤ L.length) : Stricter L L := by
  have hlen : (L.drop (L.length - 2)).length = 2 := by
    rw [List.length_drop]
    omega
  obtain ⟨m, w, hmw⟩ := List.length_eq_two.mp hlen
  have hL := List.take_append_drop (L.length - 2) L
  rw [hmw] at hL
  exact ⟨L.take (L.length - 2), m, w, m, w, hL.symm, hL.symm, id⟩

theorem stricter_of_strictLevels (h : strictLevels L E = true) (hlen : L.length = E.length)
    (h2 : 2 ≤ L.length) : Stricter L E := by
  induction L generalizing E with
  | nil => simp at h2
  | cons x L ih =>
    cases E with
    | nil => simp at hlen
    | cons y E =>
      simp only [List.length_cons, Nat.add_right_cancel_iff] at hlen
      simp only [strictLevels, Bool.and_eq_true, Bool.not_eq_true'] at h
      obtain ⟨⟨hsame, hle⟩, hrest⟩ := h
      by_cases hL : 2 ≤ L.length
      · obtain ⟨rest, m, w, m', w', hLr, hEr, hm⟩ := ih hrest hlen hL
        have hxy : x = y := by
          have hlt : 2 < L.length + 1 := by omega
          simpa [hlt] using hsame
        exact ⟨x :: rest, m, w, m', w', by rw [hLr]; rfl, by rw [hEr, hxy]; rfl, hm⟩
      · simp only [List.length_cons] at h2
        obtain ⟨w, hw⟩ := List.length_eq_one_iff.mp (show L.length = 1 by omega)
        obtain ⟨w', hw'⟩ := List.length_eq_one_iff.mp (show E.length = 1 by omega)
        refine ⟨[], x, w, y, w', by rw [hw]; rfl, by rw [hw']; rfl, fun hy => ?_⟩
        rw [hy] at hle
        simpa using hle

theorem Over.of_stricter (h : Over E D) (hs : Stricter L E) : Over L D := by
  obtain ⟨rest, m, w, d, hE, hD, hd⟩ := h
  obtain ⟨rest', n, w', n', w'', hL, hE', hn⟩ := hs
  obtain ⟨hrest, htail⟩ := List.append_inj' (hE.symm.trans hE') rfl
  simp only [List.cons.injEq] at htail
  rw [← hrest] at hL
  exact ⟨rest, n, w', d, hL, hD, fun h => hn (htail.1 ▸ hd h)⟩

/-- The own level of the pointer does not matter. -/
theorem Over.of_front {rest : List Bool} {a : Bool} (h : Over (rest ++ [a]) D) :
    Over (rest ++ [b]) D := by
  obtain ⟨rest', m, w, d, hL, hD, hd⟩ := h
  have hsplit : rest' ++ [m, w] = (rest' ++ [m]) ++ [w] := by simp
  obtain ⟨rfl, -⟩ := List.append_inj' (hL.trans hsplit) rfl
  exact ⟨rest', m, b, d, by simp, hD, hd⟩

theorem Over.set_last (h : Over L D) : Over (L.set (L.length - 1) b) D := by
  obtain ⟨rest, m, w, d, rfl, hD, hd⟩ := h
  have hlen : (rest ++ [m, w]).length - 1 = rest.length + 1 := by simp
  refine ⟨rest, m, b, d, ?_, hD, hd⟩
  rw [hlen, List.set_append_right _ _ (by omega)]
  simp

theorem Over.of_sees (h : Over L D) (hs : Sees L D') : Over D' D := by
  obtain ⟨rest, w, d, rfl, rfl, -⟩ := hs
  exact h.of_front

theorem Over.of_seen (h : Over D' D) (hs : Sees L D') : Over L D := by
  obtain ⟨rest, w, d, rfl, rfl, -⟩ := hs
  exact h.of_front

/-- What a pointer that is seen points to is seen one level further. -/
theorem Sees.deref (h : Sees L D') (ho : Over D' D) : Sees (L.take (L.length - 1)) D := by
  obtain ⟨rest, w, d', rfl, hD', -⟩ := h
  obtain ⟨rest', m, w', d, hD'', hD, hd⟩ := ho
  have hsplit : rest' ++ [m, w'] = (rest' ++ [m]) ++ [w'] := by simp
  obtain ⟨rfl, -⟩ := List.append_inj' (hD'.symm.trans (hD''.trans hsplit)) rfl
  refine ⟨rest', m, d, ?_, hD, hd⟩
  rw [List.length_append, List.length_singleton, Nat.add_sub_cancel, List.take_left]

theorem Sees.refl (h : 0 < L.length) : Sees L L := by
  have hne : L ≠ [] := List.ne_nil_of_length_pos h
  exact ⟨L.dropLast, L.getLast hne, L.getLast hne, (List.dropLast_append_getLast hne).symm,
    (List.dropLast_append_getLast hne).symm, id⟩

theorem Sees.length_eq (h : Sees L D) : L.length = D.length := by
  obtain ⟨rest, w, d, rfl, rfl, -⟩ := h
  simp

theorem Over.length_eq (h : Over L D) : L.length = D.length + 1 := by
  obtain ⟨rest, m, w, d, rfl, rfl, -⟩ := h
  simp

/-- What is seen is seen with its qualifier. -/
theorem Sees.levelAt {k : ℕ} (h : Sees (L.take (L.length - k)) D) (hk : k < L.length)
    (hd : levelAt D 0 = some true) : CVQualifiers.levelAt L k = some true := by
  obtain ⟨rest, w, d, hL, rfl, hw⟩ := h
  have hlen := congrArg List.length hL
  simp only [List.length_take, List.length_append, List.length_singleton] at hlen
  have hrest : rest.length = L.length - k - 1 := by omega
  have hdt : d = true := by
    simpa [CVQualifiers.levelAt] using hd
  have hget : (L.take (L.length - k))[rest.length]? = some w := by
    rw [hL]
    simp
  rw [List.getElem?_take_of_lt (by omega), hrest] at hget
  unfold CVQualifiers.levelAt
  rw [if_neg (by omega), if_neg (by simpa using hk)]
  simp only [Int.toNat_natCast]
  rw [hget, hw hdt]

end Levels

/-! ## Qualifiers that match -/

section Match

variable {o : QualifierOptions} {q r e d : CVQualifiers} {level : ℤ} {k : ℕ}

/-- A variable's qualifiers: one of each kind for every level. -/
structure Sane (q : CVQualifiers) : Prop where
  wildcard : q.wildcard = false
  pos : 0 < q.isConsts.length
  same : q.isConsts.length = q.isVolatiles.length

/-- Both vectors are as strict. -/
def AtLeast (q r : CVQualifiers) : Prop :=
  Stricter q.isConsts r.isConsts ∧ Stricter q.isVolatiles r.isVolatiles

/-- A pointer with these qualifiers may point to a variable with those. -/
def MayPointTo (q d : CVQualifiers) : Prop :=
  Over q.isConsts d.isConsts ∧ Over q.isVolatiles d.isVolatiles

/-- The qualifiers of what is dereferenced `k` times. -/
def view (q : CVQualifiers) (k : ℕ) : CVQualifiers := q.removeQualifiers k

theorem view_zero : (q.view 0).isConsts = q.isConsts ∧ (q.view 0).isVolatiles = q.isVolatiles := by
  simp [view, removeQualifiers]

theorem MayPointTo.of_atLeast (h : e.MayPointTo d) (hs : q.AtLeast e) : q.MayPointTo d :=
  ⟨h.1.of_stricter hs.1, h.2.of_stricter hs.2⟩

theorem MayPointTo.setConst {b : Bool} (h : q.MayPointTo d) : (q.setConst b).MayPointTo d :=
  ⟨h.1.set_last, h.2⟩

theorem MayPointTo.setVolatile {b : Bool} (h : q.MayPointTo d) : (q.setVolatile b).MayPointTo d :=
  ⟨h.1, h.2.set_last⟩

/-- What an assignment asks for differs in the level of the variable itself. -/
theorem MayPointTo.lhsQualifiers {noVolatile restricted sideEffectFree : Bool}
    (h : q.MayPointTo d) :
    (CVQualifiers.lhsQualifiers q noVolatile restricted sideEffectFree).MayPointTo d := by
  have hfirst : { q with acceptStricter := true }.MayPointTo d := h
  have hsecond : (if noVolatile then { q with acceptStricter := true }.setVolatile false
      else { q with acceptStricter := true }).MayPointTo d := by
    split
    · exact hfirst.setVolatile
    · exact hfirst
  unfold CVQualifiers.lhsQualifiers
  dsimp only
  split
  · unfold CVQualifiers.restrict
    dsimp only
    rw [if_pos rfl]
    split
    · exact hsecond.setConst
    · exact hsecond.setConst.setVolatile
  · exact hsecond

@[simp] theorem length_lhsQualifiers {noVolatile restricted sideEffectFree : Bool} :
    (lhsQualifiers q noVolatile restricted sideEffectFree).isConsts.length = q.isConsts.length ∧
    (lhsQualifiers q noVolatile restricted sideEffectFree).isVolatiles.length =
      q.isVolatiles.length ∧
    (lhsQualifiers q noVolatile restricted sideEffectFree).wildcard = q.wildcard ∧
    (lhsQualifiers q noVolatile restricted sideEffectFree).acceptStricter = true := by
  cases noVolatile <;> cases restricted <;> cases sideEffectFree <;>
    simp [lhsQualifiers, restrict, setConst, setVolatile]

theorem atLeast_of_stricterThan (h : q.stricterThan r = true) (h2 : 2 ≤ q.isConsts.length)
    (hq : q.isConsts.length = q.isVolatiles.length) : q.AtLeast r := by
  simp only [stricterThan, Bool.and_eq_true, decide_eq_true_eq] at h
  obtain ⟨⟨⟨⟨hc, hv⟩, hconst⟩, -⟩, hvol⟩ := h
  exact ⟨stricter_of_strictLevels hconst hc h2, stricter_of_strictLevels hvol hv (hq ▸ h2)⟩

/-- **What matches is as strict on the right side.** -/
theorem atLeast_of_isMatch (h : q.isMatch o r = true) (hw : q.wildcard = false)
    (hq : q.isConsts.length = q.isVolatiles.length)
    (hr : r.isConsts.length = r.isVolatiles.length) (h2 : 2 ≤ q.isConsts.length) :
    ((q.acceptStricter = false ∨ o.matchExactQualifiers = true) → q.AtLeast r) ∧
    ((q.acceptStricter = true ∨ o.matchExactQualifiers = true) → r.AtLeast q) := by
  have hw' : ¬ q.wildcard = true := by simp [hw]
  have hone : ¬ (q.isConsts.length = r.isConsts.length ∧ q.isConsts.length = 1) := by omega
  unfold isMatch at h
  rw [if_neg hw'] at h
  by_cases hexact : o.matchExactQualifiers = true
  · rw [if_pos hexact] at h
    simp only [Bool.and_eq_true, decide_eq_true_eq] at h
    obtain ⟨hc, hv⟩ := h
    unfold AtLeast
    rw [← hc, ← hv]
    exact ⟨fun _ => ⟨.refl h2, .refl (hq ▸ h2)⟩, fun _ => ⟨.refl h2, .refl (hq ▸ h2)⟩⟩
  · rw [if_neg hexact, if_neg hone] at h
    rw [Bool.not_eq_true] at hexact
    cases hacc : q.acceptStricter with
    | false =>
      simp only [hacc, Bool.not_false, Bool.true_and, Bool.false_and, Bool.or_false] at h
      exact ⟨fun _ => atLeast_of_stricterThan h h2 hq, fun hf => by simp [hexact] at hf⟩
    | true =>
      simp only [hacc, Bool.not_true, Bool.true_and, Bool.false_and, Bool.false_or] at h
      have hlen : r.isConsts.length = q.isConsts.length := by
        simp only [stricterThan, Bool.and_eq_true, decide_eq_true_eq] at h
        exact h.1.1.1.1
      exact ⟨fun hf => by simp [hexact] at hf, fun _ => atLeast_of_stricterThan h (by omega) hr⟩

/-- **`match_indirect`** matches what is asked for with the levels that are left, or
with those of the address. -/
theorem isMatch_of_matchIndirect (h : q.matchIndirect o r = true) (hw : q.wildcard = false) :
    ∃ r', r.indirectQualifiers (r.isConsts.length - q.isConsts.length) = some r' ∧
      q.isMatch o r' = true := by
  have hw' : ¬ q.wildcard = true := by simp [hw]
  unfold matchIndirect at h
  rw [if_neg hw'] at h
  split at h
  · next heq =>
    refine ⟨r, ?_, h⟩
    unfold indirectQualifiers
    rw [if_pos (.inl (by omega))]
  · dsimp only at h
    split at h
    · exact absurd h Bool.false_ne_true
    · split at h
      · next r' hr' => exact ⟨r', hr', h⟩
      · exact absurd h Bool.false_ne_true

theorem indirectQualifiers_natCast (hw : q.wildcard = false) :
    ∃ r, q.indirectQualifiers k = some r ∧ r.isConsts = (q.view k).isConsts ∧
      r.isVolatiles = (q.view k).isVolatiles ∧ r.wildcard = false := by
  unfold indirectQualifiers
  by_cases hk : k = 0
  · subst hk
    rw [if_pos (.inl rfl)]
    exact ⟨q, rfl, view_zero.1.symm, view_zero.2.symm, hw⟩
  · rw [if_neg (by simp [hw, hk]), if_neg (by omega)]
    exact ⟨_, rfl, rfl, rfl, hw⟩

theorem Sane.indirect (h : q.Sane) (he : q.indirectQualifiers level = some e) :
    e.wildcard = false ∧ e.isConsts.length = e.isVolatiles.length := by
  have hw := h.wildcard
  have hsame := h.same
  unfold indirectQualifiers at he
  split_ifs at he <;> cases he
  · exact ⟨hw, hsame⟩
  · exact ⟨hw, by simp [addQualifiers, hsame]⟩
  · exact ⟨hw, by simp [removeQualifiers, hsame]⟩

/-- **The left side of an assignment that matches** may point where the right one
may. -/
theorem MayPointTo.lhs {noVolatile restricted sideEffectFree : Bool} (h : q.MayPointTo d)
    (hq : q.wildcard = false) (hsame : q.isConsts.length = q.isVolatiles.length)
    (h2 : 2 ≤ q.isConsts.length) (hr : r.Sane) (hsize : q.isConsts.length + k = r.isConsts.length)
    (hm : (CVQualifiers.lhsQualifiers q noVolatile restricted sideEffectFree).matchIndirect o r =
      true) : (r.view k).MayPointTo d := by
  have hlhs : (CVQualifiers.lhsQualifiers q noVolatile restricted sideEffectFree).MayPointTo d :=
    h.lhsQualifiers
  obtain ⟨hc, hv, hw, hacc⟩ := @length_lhsQualifiers q noVolatile restricted sideEffectFree
  generalize CVQualifiers.lhsQualifiers q noVolatile restricted sideEffectFree = p at *
  obtain ⟨r', hr', hmatch⟩ := isMatch_of_matchIndirect hm (hw.trans hq)
  have hlevel : ((r.isConsts.length : ℤ) - p.isConsts.length) = (k : ℤ) := by omega
  rw [hlevel] at hr'
  obtain ⟨r'', hr'', hrc, hrv, -⟩ := indirectQualifiers_natCast (q := r) (k := k) hr.wildcard
  obtain rfl := Option.some.inj (hr'.symm.trans hr'')
  have hat := (atLeast_of_isMatch hmatch (hw.trans hq) (by omega) (hr.indirect hr').2
    (by omega)).2 (.inl hacc)
  have hres := hlhs.of_atLeast hat
  unfold MayPointTo at hres ⊢
  rwa [← hrc, ← hrv]

end Match

/-! ## Memories in which no pointer hides a qualifier -/

/-- **The invariant**: pointers point where they may. Every variable there is has sane
qualifiers, and a target is one that the qualifiers of its pointer allow. -/
structure Sound (M : Memory) : Prop where
  sane : ∀ v < M.next, (M.qfer v).Sane
  target : ∀ v t, M.target v = some t →
    v < M.next ∧ t < M.next ∧ (M.qfer v).MayPointTo (M.qfer t)

namespace Sound

variable {o : QualifierOptions} {M M' : Memory} {v w k n ob t : ℕ} {level : ℤ}
variable {e : CVQualifiers}
variable (h : Sound M)

include h

/-- **A chain of dereferences sees the variable it ends in.** -/
theorem sees (hv : v < M.next) (hd : M.deref v k = some ob) :
    ob < M.next ∧ k < M.size v ∧
    Sees ((M.qfer v).isConsts.take (M.size v - k)) (M.qfer ob).isConsts ∧
    Sees ((M.qfer v).isVolatiles.take (M.size v - k)) (M.qfer ob).isVolatiles := by
  induction k generalizing ob with
  | zero =>
    cases hd
    have hs := h.sane v hv
    refine ⟨hv, hs.pos, ?_, ?_⟩
    · rw [Nat.sub_zero, Memory.size, List.take_length]
      exact .refl hs.pos
    · rw [Nat.sub_zero, Memory.size, hs.same, List.take_length]
      exact .refl (hs.same ▸ hs.pos)
  | succ k ih =>
    obtain ⟨u, hu, ht⟩ := Option.bind_eq_some_iff.mp hd
    obtain ⟨-, hk, hconst, hvol⟩ := ih hu
    obtain ⟨-, hob, hpoint⟩ := h.target u ob ht
    have hsame := (h.sane v hv).same
    -- one level less is left
    have hone : ∀ (L : List Bool), L.length = M.size v →
        (L.take (M.size v - k)).take ((L.take (M.size v - k)).length - 1) =
          L.take (M.size v - (k + 1)) := by
      intro L hL
      rw [List.length_take, hL, List.take_take]
      congr 1
      omega
    have hlen := hpoint.1.length_eq
    have hlen' := hconst.length_eq
    have hpos := (h.sane ob hob).pos
    rw [List.length_take] at hlen'
    have hsize : M.size v = (M.qfer v).isConsts.length := rfl
    refine ⟨hob, by omega, ?_, ?_⟩
    · rw [← hone _ rfl]
      exact hconst.deref hpoint.1
    · rw [← hone _ hsame.symm]
      exact hvol.deref hpoint.2

/-- What an expression of pointer type yields, the qualifiers of the expression may
point to. -/
theorem value_mayPointTo (hw : w < M.next) (he : (M.qfer w).indirectQualifiers level = some e)
    (hval : M.value w level = some (some t)) : t < M.next ∧ e.MayPointTo (M.qfer t) := by
  have hs := h.sane w hw
  unfold Memory.value at hval
  split at hval
  · next hneg =>
    -- the address
    cases hval
    refine ⟨hw, ?_⟩
    unfold indirectQualifiers at he
    rw [if_neg (by simp [hs.wildcard]; omega), if_pos hneg] at he
    split at he
    · cases he
      have hover : ∀ (L : List Bool), 0 < L.length → Over (L ++ [false]) L := by
        intro L hL
        obtain ⟨rest, d, d', hLd, hLd', -⟩ := Sees.refl hL
        refine ⟨rest, d, false, d, ?_, hLd, id⟩
        rw [hLd]
        simp
      exact ⟨hover _ hs.pos, hover _ (hs.same ▸ hs.pos)⟩
    · cases he
  · next hnn =>
    obtain ⟨k, rfl⟩ : ∃ k : ℕ, level = k := ⟨level.toNat, by omega⟩
    obtain ⟨u, hu, htgt⟩ := Option.map_eq_some_iff.mp hval
    rw [Int.toNat_natCast] at hu
    obtain ⟨hlt, hk, hconst, hvol⟩ := h.sees hw hu
    obtain ⟨-, ht, hpoint⟩ := h.target u t htgt
    obtain ⟨e', he', hc, hv, -⟩ := indirectQualifiers_natCast (q := M.qfer w) (k := k) hs.wildcard
    obtain rfl := Option.some.inj (he.symm.trans he')
    refine ⟨ht, ?_, ?_⟩
    · rw [hc]
      exact hpoint.1.of_seen hconst
    · rw [hv, view, removeQualifiers, ← hs.same]
      exact hpoint.2.of_seen hvol

/-- **A pointer that is set**, through `k` dereferences. -/
theorem store {p : Option ℕ} (hv : v < M.next) (hd : M.deref v k = some ob)
    (hp : ∀ t, p = some t → 2 ≤ n → t < M.next ∧ ((M.qfer v).view k).MayPointTo (M.qfer t)) :
    Sound (M.store ob n p) := by
  obtain ⟨hob, -, hconst, hvol⟩ := h.sees hv hd
  unfold Memory.store
  split
  · exact h
  next hn =>
    refine ⟨h.sane, fun u t hu => ?_⟩
    dsimp only at hu ⊢
    by_cases hueq : u = ob
    · subst hueq
      rw [Function.update_self] at hu
      obtain ⟨ht, hpoint⟩ := hp t hu (by omega)
      refine ⟨hob, ht, hpoint.1.of_sees hconst, hpoint.2.of_sees ?_⟩
      rw [view, removeQualifiers, ← (h.sane v hv).same]
      exact hvol
    · rw [Function.update_of_ne hueq] at hu
      exact h.target u t hu

/-- A left side that is written. -/
theorem write {p : Option (Option ℕ)} (hv : v < M.next) (hw : M.write v k n p = some M')
    (hp : ∀ t, p = some (some t) → 2 ≤ n →
      t < M.next ∧ ((M.qfer v).view k).MayPointTo (M.qfer t)) : Sound M' := by
  obtain ⟨p, rfl, hw⟩ := Option.bind_eq_some_iff.mp hw
  obtain ⟨ob, hob, rfl⟩ := Option.map_eq_some_iff.mp hw
  exact h.store hv hob fun t ht hn => hp t (by rw [ht]) hn

theorem declare {q : CVQualifiers} (hq : q.Sane) :
    Sound { M with qfer := Function.update M.qfer M.next q, next := M.next + 1 } := by
  have hold : ∀ u < M.next, Function.update M.qfer M.next q u = M.qfer u := fun u hu =>
    Function.update_of_ne (by omega) _ _
  refine ⟨fun u hu => ?_, fun u t hu => ?_⟩
  · dsimp only at hu ⊢
    by_cases hlt : u < M.next
    · rw [hold u hlt]
      exact h.sane u hlt
    · obtain rfl : u = M.next := by omega
      rw [Function.update_self]
      exact hq
  · obtain ⟨hu', ht, hpoint⟩ := h.target u t hu
    dsimp only
    rw [hold u hu', hold t ht]
    exact ⟨by omega, by omega, hpoint⟩

end Sound

/-- **One event keeps the invariant.** -/
theorem Sound.step {o : QualifierOptions} {M M' : Memory} {ev : Event} (h : Sound M)
    (hstep : CVQualifiers.step o M ev = some M') : Sound M' := by
  cases ev with
  | declare q =>
    simp only [CVQualifiers.step] at hstep
    split at hstep
    next hq =>
      cases hstep
      exact h.declare ⟨hq.1, hq.2.1, hq.2.2⟩
    next => cases hstep
  | pass v w =>
    simp only [CVQualifiers.step] at hstep
    split at hstep
    next hok =>
      obtain ⟨hv, hw, hmatch⟩ := hok
      have hs := h.sane v hv
      obtain ⟨e, he, hm⟩ := isMatch_of_matchIndirect hmatch hs.wildcard
      refine h.write hv hstep fun t ht hn => ?_
      obtain ⟨hlt, hpoint⟩ := h.value_mayPointTo hw he ht
      refine ⟨hlt, ?_⟩
      have hat := (atLeast_of_isMatch hm hs.wildcard hs.same ((h.sane w hw).indirect he).2 hn).1
        (.inl rfl)
      have hres : (M.qfer v).MayPointTo (M.qfer t) := hpoint.of_atLeast hat
      unfold MayPointTo at hres ⊢
      rwa [view_zero.1, view_zero.2]
    next => cases hstep
  | assign v k w level noVolatile restricted sideEffectFree =>
    simp only [CVQualifiers.step] at hstep
    split at hstep
    · cases hstep
    next e he =>
    split at hstep
    next hok =>
      obtain ⟨hw, ⟨hv, hsize, -⟩, hmatch⟩ := hok
      obtain ⟨hwild, hsame⟩ := (h.sane w hw).indirect he
      refine h.write hv hstep fun t ht hn => ?_
      obtain ⟨hlt, hpoint⟩ := h.value_mayPointTo hw he ht
      exact ⟨hlt, hpoint.lhs hwild hsame hn (h.sane v hv) hsize hmatch⟩
    next => cases hstep
  -- by way of the qualifiers asked for, which both sides are compared with
  | assignIn q v k w noVolatile restricted sideEffectFree =>
    simp only [CVQualifiers.step] at hstep
    split at hstep
    next hok =>
      obtain ⟨hwild, hacc, hsame, hw, hrhs, ⟨hv, hsize, -⟩, hmatch⟩ := hok
      obtain ⟨e, he, hm⟩ := isMatch_of_matchIndirect hrhs hwild
      refine h.write hv hstep fun t ht hn => ?_
      obtain ⟨hlt, hpoint⟩ := h.value_mayPointTo hw he ht
      have hat := (atLeast_of_isMatch hm hwild hsame ((h.sane w hw).indirect he).2 hn).1 (.inl hacc)
      exact ⟨hlt, (hpoint.of_atLeast hat).lhs hwild hsame hn (h.sane v hv) hsize hmatch⟩
    next => cases hstep
  | assignConstant v k =>
    simp only [CVQualifiers.step] at hstep
    split at hstep
    next hok =>
      refine h.write hok.1 hstep fun t ht hn => ?_
      cases ht
    next => cases hstep

theorem sound_of_reachable {o : QualifierOptions} {M : Memory} (h : (system o).Reachable M) :
    Sound M := by
  refine h.invariant ?_ ?_
  · rintro _ rfl
    exact ⟨fun v hv => absurd hv (Nat.not_lt_zero v), fun v t ht => by cases ht⟩
  · rintro M M' - hM ⟨ev, hstep⟩
    exact hM.step hstep

/-- **No way around a qualifier**: through any chain of dereferences, a variable that
is `const` is seen as `const`, and one that is `volatile` as `volatile`. So what is
written, because the expression for it is not `const`, is not. -/
theorem qualifiers_seen {o : QualifierOptions} {M : Memory} (h : (system o).Reachable M)
    {v k ob : ℕ} (hv : v < M.next) (hd : M.deref v k = some ob) :
    ((M.qfer ob).isConstAfterDeref 0 = some true →
      (M.qfer v).isConstAfterDeref k = some true) ∧
    ((M.qfer ob).isVolatileAfterDeref 0 = some true →
      (M.qfer v).isVolatileAfterDeref k = some true) ∧
    ∀ n, M.Writable v k n → (M.qfer ob).isConstAfterDeref 0 = some false := by
  have hM := sound_of_reachable h
  obtain ⟨hob, hk, hconst, hvol⟩ := hM.sees hv hd
  have hsv := hM.sane v hv
  have hfirst : (M.qfer ob).isConstAfterDeref 0 = some true →
      (M.qfer v).isConstAfterDeref k = some true := hconst.levelAt hk
  refine ⟨hfirst, ?_, fun n hn => ?_⟩
  · rw [Memory.size, hsv.same] at hvol
    exact hvol.levelAt (hsv.same ▸ hk)
  · have hpos := (hM.sane ob hob).pos
    -- a variable has a level of its own
    obtain ⟨b, hb⟩ : ∃ b, (M.qfer ob).isConstAfterDeref 0 = some b := by
      unfold isConstAfterDeref levelAt
      rw [if_neg (by omega), if_neg (by rw [Int.toNat_zero]; omega)]
      exact ⟨_, List.getElem?_eq_getElem (by simp; omega)⟩
    cases b with
    | false => exact hb
    | true => exact absurd ((hfirst hb).symm.trans hn.2.2) (by simp)

/-- `const int g_1; int g_2; const int *l_3 = &g_1; const int **l_4 = &l_3;`, and then
`*l_4 = &g_2;`. -/
def pointerEvents : List Event :=
  [.declare ⟨false, false, [true], [false]⟩, .declare ⟨false, false, [false], [false]⟩,
    .declare ⟨false, false, [true, false], [false, false]⟩, .pass 2 0,
    .declare ⟨false, false, [true, false, false], [false, false, false]⟩, .pass 3 2,
    .assign 3 1 1 (-1) false true true]

theorem qualifiers_seen_pointer : ∃ M, Common.runEvents (step {}) {} pointerEvents = some M ∧
    M.deref 3 2 = some 1 ∧
    ((M.qfer 1).isConstAfterDeref 0 = some true → (M.qfer 3).isConstAfterDeref 2 = some true) ∧
    ((M.qfer 1).isVolatileAfterDeref 0 = some true →
      (M.qfer 3).isVolatileAfterDeref 2 = some true) ∧
    ∀ n, M.Writable 3 2 n → (M.qfer 1).isConstAfterDeref 0 = some false := by
  obtain ⟨M, hM⟩ : ∃ M, Common.runEvents (step {}) {} pointerEvents = some M := ⟨_, rfl⟩
  have hderef : M.deref 3 2 = some 1 ∧ 3 < M.next := by
    cases hM
    exact ⟨rfl, by decide⟩
  refine ⟨M, hM, hderef.1, @qualifiers_seen {} M ?_ 3 2 1 hderef.2 hderef.1⟩
  exact Common.reachable_runEvents (.init rfl) hM

end CVQualifiers

end CLSmith
