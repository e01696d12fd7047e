import CLSmith.Common.CString
import CLSmith.Common.StdString
/-!
# String utilities

`StringUtils`: numbers read from strings, blanks skipped, substrings between
delimiters, and strings split at a separator. A printed number is read back,
and a list of words printed with a separator is split into these.
-/

namespace CLSmith

namespace StringUtils

open Common CString StdString

/-! ## Numbers -/

/-- The hexadecimal digits `ss >> std::hex` reads, after those that gave `acc`. -/
def hexDigits (acc : ℕ) : List Char → ℕ
  | [] => acc
  | c :: s =>
    if c.isDigit then hexDigits (acc * 16 + (c.toNat - 48)) s
    else if 'a' ≤ c ∧ c ≤ 'f' then hexDigits (acc * 16 + (c.toNat - 87)) s
    else if 'A' ≤ c ∧ c ≤ 'F' then hexDigits (acc * 16 + (c.toNat - 55)) s
    else acc

/-- `str2int`, as far as the fuel goes: every pair of parentheses is a call,
which asserts that it is closed. -/
def str2intFrom : ℕ → List Char → Option ℤ
  | 0, _ => none
  | n + 1, '(' :: s => if s.getLast? = some ')' then str2intFrom n s.dropLast else none
  | _ + 1, '0' :: 'x' :: s => some (hexDigits 0 s)
  | _ + 1, s => some (atoi s)

/-- **`str2int`.** Pairs of parentheses around the number are taken off, and after
`0x` the digits are hexadecimal. -/
def str2int (s : List Char) : Option ℤ := str2intFrom (s.length + 1) s

/-- A number comes back from its digits. -/
theorem str2int_decimal (m : ℕ) : str2int (decimal m) = some (m : ℤ) := by
  have hdigit := isDigit_of_mem_decimal m
  have hx : ∀ s : List Char, decimal m = '0' :: 'x' :: s → False := by
    intro s h
    have hmem : 'x' ∈ decimal m := by rw [h]; simp
    have := hdigit 'x' hmem
    revert this
    decide
  have hparen : ∀ s : List Char, decimal m = '(' :: s → False := by
    intro s h
    have hmem : '(' ∈ decimal m := by rw [h]; simp
    have := hdigit '(' hmem
    revert this
    decide
  unfold str2int
  rw [str2intFrom]
  · rw [atoi_decimal]
  · exact hparen
  · exact hx

/-! ## Words -/

/-- `is_space`. -/
def isSpace (c : Char) : Bool := c == ' ' || c == '\t' || c == '\n'

/-- `empty_line`. -/
def emptyLine (line : List Char) : Bool := line.all isSpace

/-- `ignore_spaces`; behind the end a string has a null character. -/
def ignoreSpaces (s : List Char) (pos : ℕ) : ℕ := pos + ((s.drop pos).takeWhile isSpace).length

/-- `s[pos]`. -/
def charAt (s : List Char) (pos : ℕ) : Char := (s[pos]?).getD '\x00'

/-- `first_nonspace_char`. -/
def firstNonspaceChar (s : List Char) : Char := charAt s (ignoreSpaces s 0)

/-- `get_substring_before`. -/
def getSubstringBefore (s : List Char) (pos : ℕ) (closeDelim : Char) : Option (List Char) :=
  match find s closeDelim pos with
  | none => some []
  | some endPos => if endPos = pos then some [] else substrLen s pos (endPos - pos)

/-- `get_substring`. -/
def getSubstring (s : List Char) (openDelim closeDelim : Char) : Option (List Char) :=
  let pos := ignoreSpaces s 0
  if charAt s pos = openDelim then getSubstringBefore s (pos + 1) closeDelim else some []

/-- The loop of `split_string`, as far as the fuel goes. -/
def splitFrom (s : List Char) (sep : Char) : ℕ → ℕ → Option (List (List Char))
  | 0, _ => none
  | n + 1, pos =>
    let startPos := ignoreSpaces s pos
    match find s sep startPos with
    | none => (substr s startPos).map fun w => if w = [] then [] else [w]
    | some pos => do
      let w ← substrLen s startPos (pos - startPos)
      let ws ← splitFrom s sep n (pos + 1)
      some (if w = [] then ws else w :: ws)

/-- **`split_string`.** Blanks in front of a word are skipped, and empty words are
left out. -/
def splitString (s : List Char) (sep : Char) : Option (List (List Char)) :=
  splitFrom s sep (s.length + 1) 0

/-! ## Words printed and read -/

/-- A string that a separator can be printed after: not empty, without the
separator, and not with a blank in front. -/
structure Word (sep : Char) (w : List Char) : Prop where
  ne_nil : w ≠ []
  no_sep : sep ∉ w
  no_space : ∀ c ∈ w.head?, isSpace c = false

/-- Words with a separator between them. -/
def joinWith (sep : Char) : List (List Char) → List Char
  | [] => []
  | [w] => w
  | w :: ws => w ++ sep :: joinWith sep ws

variable {sep : Char} {w P S : List Char} {ws : List (List Char)} {n m : ℕ}

/-- Nothing is skipped in front of a word. -/
theorem ignoreSpaces_word (hw : Word sep w) (hn : P.length = n) :
    ignoreSpaces (P ++ (w ++ S)) n = n := by
  unfold ignoreSpaces
  rw [← hn, List.drop_left]
  cases w with
  | nil => exact absurd rfl hw.ne_nil
  | cons c w =>
    rw [List.cons_append, List.takeWhile_cons_of_neg (by simp [hw.no_space c rfl])]
    rfl

/-- **The words come back**, from the position on where they start. -/
theorem splitFrom_join (hw : ∀ w ∈ ws, Word sep w) (hne : ws ≠ []) (hn : P.length = n)
    (hm : ws.length ≤ m) : splitFrom (P ++ joinWith sep ws) sep m n = some ws := by
  induction ws generalizing P n m with
  | nil => exact absurd rfl hne
  | cons w ws ih =>
    obtain ⟨m, rfl⟩ : ∃ k, m = k + 1 := ⟨m - 1, by simp at hm; omega⟩
    have hword := hw w List.mem_cons_self
    cases ws with
    | nil =>
      have hskip : ignoreSpaces (P ++ joinWith sep [w]) n = n := by
        have := ignoreSpaces_word (S := []) hword hn
        rwa [List.append_nil] at this
      have hfind : find (P ++ joinWith sep [w]) sep n = none := find_none hn hword.no_sep
      have hsub : substr (P ++ joinWith sep [w]) n = some w := substr_append hn
      rw [splitFrom]
      simp only [hskip, hfind, hsub, Option.map_some, if_neg hword.ne_nil]
    | cons w' ws =>
      have hjoin : joinWith sep (w :: w' :: ws) = w ++ sep :: joinWith sep (w' :: ws) := rfl
      have hskip : ignoreSpaces (P ++ joinWith sep (w :: w' :: ws)) n = n := by
        rw [hjoin]
        exact ignoreSpaces_word hword hn
      -- no word has a separator in it, so that the first one found ends this word
      have hfind : find (P ++ joinWith sep (w :: w' :: ws)) sep n = some (n + w.length) := by
        rw [hjoin]
        exact find_split hn hword.no_sep
      have hsub : substrLen (P ++ joinWith sep (w :: w' :: ws)) n (n + w.length - n) = some w := by
        rw [hjoin]
        exact substrLen_append hn (by omega)
      have hnext : P ++ joinWith sep (w :: w' :: ws) =
          (P ++ w ++ [sep]) ++ joinWith sep (w' :: ws) := by
        rw [hjoin]
        simp
      have hrest : splitFrom (P ++ joinWith sep (w :: w' :: ws)) sep m (n + w.length + 1) =
          some (w' :: ws) := by
        rw [hnext]
        exact ih (fun x hx => hw x (List.mem_cons_of_mem _ hx)) (List.cons_ne_nil _ _)
          (by simp [hn]; omega) (by simpa using hm)
      rw [splitFrom]
      simp only [hskip, hfind, hsub, hrest, Option.bind_eq_bind, Option.bind_some,
        if_neg hword.ne_nil]

theorem length_le_joinWith (hw : ∀ w ∈ ws, Word sep w) : ws.length ≤ (joinWith sep ws).length := by
  induction ws with
  | nil => exact Nat.le_refl _
  | cons w ws ih =>
    have hpos := List.length_pos_of_ne_nil (hw w List.mem_cons_self).ne_nil
    have htail := ih fun x hx => hw x (List.mem_cons_of_mem _ hx)
    cases ws with
    | nil => exact hpos
    | cons w' ws =>
      have hjoin : joinWith sep (w :: w' :: ws) = w ++ sep :: joinWith sep (w' :: ws) := rfl
      rw [hjoin, List.length_append]
      simp only [List.length_cons] at htail ⊢
      omega

/-- **`split_string` reads what was printed with the separator.** -/
theorem splitString_join (hw : ∀ w ∈ ws, Word sep w) (hne : ws ≠ []) :
    splitString (joinWith sep ws) sep = some ws :=
  splitFrom_join (P := []) hw hne rfl (Nat.le_succ_of_le (length_le_joinWith hw))

/-- **`get_substring` reads what stands between the delimiters.** -/
theorem getSubstring_delimited {openDelim closeDelim : Char} (hopen : isSpace openDelim = false)
    (hne : w ≠ []) (hw : closeDelim ∉ w) :
    getSubstring (openDelim :: (w ++ [closeDelim])) openDelim closeDelim = some w := by
  have hskip : ignoreSpaces (openDelim :: (w ++ [closeDelim])) 0 = 0 := by
    unfold ignoreSpaces
    rw [List.drop_zero, List.takeWhile_cons_of_neg (by simp [hopen])]
    rfl
  have hchar : charAt (openDelim :: (w ++ [closeDelim])) 0 = openDelim := rfl
  have hfind : find ([openDelim] ++ (w ++ closeDelim :: [])) closeDelim 1 = some (1 + w.length) :=
    find_split rfl hw
  have hsub : substrLen ([openDelim] ++ (w ++ [closeDelim])) 1 (1 + w.length - 1) = some w :=
    substrLen_append rfl (by omega)
  have hpos := List.length_pos_of_ne_nil hne
  have hbefore : getSubstringBefore (openDelim :: (w ++ [closeDelim])) (0 + 1) closeDelim =
      some w := by
    unfold getSubstringBefore
    rw [show openDelim :: (w ++ [closeDelim]) = [openDelim] ++ (w ++ closeDelim :: []) from rfl,
      Nat.zero_add, hfind]
    dsimp only
    rw [if_neg (by omega), hsub]
  unfold getSubstring
  simp only [hskip, hchar, if_true, hbefore]

end StringUtils

end CLSmith
