import Mathlib.Data.List.Basic
/-!
# `std::string`

Strings as lists of characters again, with what the code uses of
`std::string`: positions found from the front and from the back, and
substrings, which throw where they start behind the end. Each search has a
lemma for a string that is cut at the place it finds.
-/

namespace CLSmith

namespace Common

namespace StdString

/-- `s.find(c, pos)`, and `s.find_first_of(c, pos)`; no position is `npos`. -/
def find (s : List Char) (c : Char) (pos : ℕ) : Option ℕ :=
  ((s.drop pos).findIdx? (· == c)).map (pos + ·)

/-- `s.find_last_of(c)`. -/
def findLastOf (s : List Char) (c : Char) : Option ℕ :=
  (s.reverse.findIdx? (· == c)).map fun i => s.length - 1 - i

/-- `s.substr(pos)`. -/
def substr (s : List Char) (pos : ℕ) : Option (List Char) :=
  if pos ≤ s.length then some (s.drop pos) else none

/-- `s.substr(pos, len)`. -/
def substrLen (s : List Char) (pos len : ℕ) : Option (List Char) :=
  (substr s pos).map (·.take len)

variable {A B P s : List Char} {c : Char} {n : ℕ}

theorem findIdx?_split (h : c ∉ A) : (A ++ c :: B).findIdx? (· == c) = some A.length := by
  induction A with
  | nil => rw [List.nil_append, List.findIdx?_cons, beq_self_eq_true]; rfl
  | cons a A ih =>
    obtain ⟨hne, hA⟩ := not_or.mp (fun h' => h (List.mem_cons.mpr h'))
    have hac : (a == c) = false := beq_eq_false_iff_ne.mpr fun he => hne he.symm
    rw [List.cons_append, List.findIdx?_cons, hac, ih hA]
    rfl

theorem findIdx?_none (h : c ∉ A) : A.findIdx? (· == c) = none := by
  rw [List.findIdx?_eq_none_iff]
  intro a ha
  exact beq_eq_false_iff_ne.mpr fun he => h (he ▸ ha)

/-- A search from where a part starts finds the first place in it. -/
theorem find_split (hn : P.length = n) (h : c ∉ A) :
    find (P ++ (A ++ c :: B)) c n = some (n + A.length) := by
  unfold find
  rw [← hn, List.drop_left, findIdx?_split h]
  rfl

theorem find_none (hn : P.length = n) (h : c ∉ A) : find (P ++ A) c n = none := by
  unfold find
  rw [← hn, List.drop_left, findIdx?_none h]
  rfl

theorem findLastOf_split (h : c ∉ B) : findLastOf (A ++ c :: B) c = some A.length := by
  have hrev : (A ++ c :: B).reverse = B.reverse ++ c :: A.reverse := by simp
  unfold findLastOf
  rw [hrev, findIdx?_split (by simpa using h)]
  simp

theorem substr_append (hn : P.length = n) : substr (P ++ A) n = some A := by
  unfold substr
  rw [if_pos (by rw [← hn, List.length_append]; omega), ← hn, List.drop_left]

theorem substrLen_append (hn : P.length = n) {k : ℕ} (hk : A.length = k) :
    substrLen (P ++ (A ++ B)) n k = some A := by
  unfold substrLen
  rw [substr_append hn, Option.map_some, ← hk, List.take_left]

end StdString

end Common

end CLSmith
