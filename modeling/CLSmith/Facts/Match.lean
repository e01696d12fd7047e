import CLSmith.Facts.Scope
/-!
# Matching variables loosely

The innermost union a variable is in, and `loose_match`, by which all fields of
that union match one another. Fields are counted from the innermost out, so
that a variable is a field of another, at some depth, where its path has the
other's at its end.
-/

namespace CLSmith

namespace Facts

variable {N : Type} [DecidableEq N] (D : N → Decl)

/-- `get_container_union`: the innermost union a variable is or is in. -/
def unionAt (n : N) : List ℕ → Option (List ℕ)
  | [] => if (typeAt D n []).isUnion then some [] else none
  | i :: path => if (typeAt D n (i :: path)).isUnion then some (i :: path) else unionAt n path

/-- `get_container_union`, where there may be none. -/
def Variable.containerUnion : Variable N → Option (Variable N)
  | named n path => (unionAt D n path).map (named n)
  | _ => none

/-- **`loose_match`** of two collective variables: one matches the other, or both are
fields of one union. -/
def Variable.looseMatch (v w : Variable N) : Bool :=
  v.matches D w ||
    match v.containerUnion D, w.containerUnion D with
    | some me, some you => decide (you = me)
    | _, _ => false

variable {D} {n : N} {path u : List ℕ} {i : ℕ}

omit [DecidableEq N] in
theorem unionAt_union (h : (typeAt D n path).isUnion = true) : unionAt D n path = some path := by
  cases path with
  | nil => exact if_pos h
  | cons i path => exact if_pos h

omit [DecidableEq N] in
theorem unionAt_field (h : (typeAt D n (i :: path)).isUnion = false) :
    unionAt D n (i :: path) = unionAt D n path :=
  if_neg (by simp [h])

omit [DecidableEq N] in
/-- The union found is one, and the variable is it or in it. -/
theorem unionAt_some (h : unionAt D n path = some u) :
    u <:+ path ∧ (typeAt D n u).isUnion = true := by
  induction path with
  | nil =>
    by_cases hty : (typeAt D n []).isUnion = true
    · rw [unionAt_union hty] at h
      cases h
      exact ⟨List.suffix_rfl, hty⟩
    · rw [unionAt, if_neg hty] at h
      cases h
  | cons i path ih =>
    by_cases hty : (typeAt D n (i :: path)).isUnion = true
    · rw [unionAt_union hty] at h
      cases h
      exact ⟨List.suffix_rfl, hty⟩
    · rw [unionAt_field (by simpa using hty)] at h
      exact ⟨(ih h).1.trans (List.suffix_cons i path), (ih h).2⟩

end Facts

end CLSmith
