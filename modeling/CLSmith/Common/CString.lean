import Mathlib.Data.List.Basic
import Mathlib.Tactic.Ring
/-!
# C strings

Strings as lists of characters, with what the C library does with them:
decimal output, `atoi`, `strtok`, `fgets` and the comparison with a prefix.
Numbers come back from their digits, and words from the blanks between them.
-/

namespace CLSmith

namespace Common

namespace CString

/-! ## Numbers -/

/-- The character of a digit. -/
def digitChar (d : ℕ) : Char := Char.ofNat (48 + d)

/-- A number as an output stream prints it. -/
def decimal (n : ℕ) : List Char :=
  if n < 10 then [digitChar n] else decimal (n / 10) ++ [digitChar (n % 10)]

/-- The digits `atoi` reads, after those that gave `acc`. -/
def atoiDigits (acc : ℕ) : List Char → ℕ
  | [] => acc
  | c :: s => if c.isDigit then atoiDigits (acc * 10 + (c.toNat - 48)) s else acc

/-- `isspace`. -/
def isSpace (c : Char) : Bool :=
  c == ' ' || c == '\t' || c == '\n' || c == '\x0b' || c == '\x0c' || c == '\r'

/-- **`atoi`**: blanks, a sign, and digits as far as they go. What follows is not
looked at, and without a digit the value is zero. -/
def atoi (s : List Char) : ℤ :=
  match s.dropWhile isSpace with
  | '-' :: s => -(atoiDigits 0 s : ℤ)
  | '+' :: s => atoiDigits 0 s
  | s => atoiDigits 0 s

theorem digitChar_isDigit {d : ℕ} (h : d < 10) : (digitChar d).isDigit = true := by
  revert d
  decide

theorem digitChar_toNat {d : ℕ} (h : d < 10) : (digitChar d).toNat - 48 = d := by
  revert d
  decide

/-- Every character of a number is a digit. -/
theorem isDigit_of_mem_decimal (n : ℕ) : ∀ c ∈ decimal n, c.isDigit = true := by
  induction n using decimal.induct with
  | case1 n h =>
    rw [decimal, if_pos h]
    intro c hc
    rw [List.mem_singleton.mp hc]
    exact digitChar_isDigit h
  | case2 n h ih =>
    rw [decimal, if_neg h]
    intro c hc
    rcases List.mem_append.mp hc with hc | hc
    · exact ih c hc
    · rw [List.mem_singleton.mp hc]
      exact digitChar_isDigit (Nat.mod_lt n (by omega))

theorem decimal_ne_nil (n : ℕ) : decimal n ≠ [] := by
  rw [decimal]
  split_ifs <;> simp

/-- A number below `10 ^ k` has no more than `k` digits. -/
theorem length_decimal_le {k n : ℕ} (h : n < 10 ^ k) (hk : 0 < k) : (decimal n).length ≤ k := by
  induction k generalizing n with
  | zero => omega
  | succ k ih =>
    rw [decimal]
    split_ifs with hn
    · simp
    · have hpow : 10 ^ (k + 1) = 10 ^ k * 10 := by ring
      have hk' : 0 < k := by
        by_contra hk0
        have : k = 0 := by omega
        subst this
        omega
      have := ih (n := n / 10) (by omega) hk'
      simp only [List.length_append, List.length_singleton]
      omega

theorem atoiDigits_append (acc d : ℕ) (s : List Char) (hs : ∀ c ∈ s, c.isDigit = true)
    (hd : d < 10) : atoiDigits acc (s ++ [digitChar d]) = atoiDigits acc s * 10 + d := by
  induction s generalizing acc with
  | nil => simp [atoiDigits, digitChar_isDigit hd, digitChar_toNat hd]
  | cons c s ih =>
    simp only [List.cons_append, atoiDigits, hs c List.mem_cons_self, if_true]
    exact ih _ fun c' hc' => hs c' (List.mem_cons_of_mem c hc')

theorem atoiDigits_decimal (n : ℕ) : atoiDigits 0 (decimal n) = n := by
  induction n using decimal.induct with
  | case1 n h =>
    rw [decimal, if_pos h]
    simp [atoiDigits, digitChar_isDigit h, digitChar_toNat h]
  | case2 n h ih =>
    rw [decimal, if_neg h, atoiDigits_append 0 _ _ (isDigit_of_mem_decimal _)
      (Nat.mod_lt n (by omega)), ih]
    omega

/-- **A number is read as it was printed.** -/
theorem atoi_decimal (n : ℕ) : atoi (decimal n) = n := by
  have hdigits := isDigit_of_mem_decimal n
  cases hs : decimal n with
  | nil => exact absurd hs (decimal_ne_nil n)
  | cons c s =>
    have hc : c.isDigit = true := hdigits c (hs ▸ List.mem_cons_self)
    have hrange : 48 ≤ c.val.toNat ∧ c.val.toNat ≤ 57 := by
      simpa [Char.isDigit, UInt32.le_iff_toNat_le] using hc
    have hspace : isSpace c = false := by
      have hne : ∀ d : Char, d.val.toNat < 48 → c ≠ d := by
        rintro d hd rfl
        omega
      simp [isSpace, hne ' ' (by decide), hne '\t' (by decide), hne '\n' (by decide),
        hne '\x0b' (by decide), hne '\x0c' (by decide), hne '\r' (by decide)]
    have hneg : c ≠ '-' := by
      rintro rfl
      exact absurd hrange.1 (by decide)
    have hpos : c ≠ '+' := by
      rintro rfl
      exact absurd hrange.1 (by decide)
    have hread := atoiDigits_decimal n
    rw [hs] at hread
    unfold atoi
    rw [List.dropWhile_cons_of_neg (by simp [hspace])]
    split
    · next heq => exact absurd (List.cons.inj heq).1 hneg
    · next heq => exact absurd (List.cons.inj heq).1 hpos
    · rw [hread]

/-! ## Words -/

/-- **One call of `strtok`**: the next run of characters that are no delimiter,
and what is left after the delimiter that ends it. -/
def strtok (delim : Char) (s : List Char) : Option (List Char × List Char) :=
  match s.dropWhile (· == delim) with
  | [] => none
  | s => some (s.takeWhile (· != delim), (s.dropWhile (· != delim)).drop 1)

theorem length_lt_of_strtok {delim : Char} {s tok rest : List Char}
    (h : strtok delim s = some (tok, rest)) : rest.length < s.length := by
  unfold strtok at h
  split at h
  · cases h
  · next hne =>
    simp only [Option.some.injEq, Prod.mk.injEq] at h
    obtain ⟨-, rfl⟩ := h
    have hle : (s.dropWhile (· == delim)).length ≤ s.length := (List.dropWhile_suffix _).length_le
    cases hs : s.dropWhile (· == delim) with
    | nil => exact absurd hs hne
    | cons c s' =>
      rw [hs, List.length_cons] at hle
      have hc : (c == delim) = false := by
        have := List.head?_dropWhile_not (· == delim) s
        rw [hs] at this
        simpa using this
      have hdrop : (c :: s').dropWhile (· != delim) = s'.dropWhile (· != delim) :=
        List.dropWhile_cons_of_pos (by simp [bne, hc])
      have hle' : (s'.dropWhile (· != delim)).length ≤ s'.length :=
        (List.dropWhile_suffix _).length_le
      rw [hdrop, List.length_drop]
      omega

/-- **What `strtok` returns call after call**, the first time for the string and then
for NULL, until it returns NULL itself. -/
def tokens (delim : Char) (s : List Char) : List (List Char) :=
  match _h : strtok delim s with
  | none => []
  | some (tok, rest) => tok :: tokens delim rest
termination_by s.length
decreasing_by exact length_lt_of_strtok _h

section Tokens

variable {delim : Char} {s w : List Char}

theorem tokens_of_none (h : strtok delim s = none) : tokens delim s = [] := by
  rw [tokens]
  split
  · rfl
  · next h' => simp [h] at h'

theorem tokens_of_some {rest : List Char} (h : strtok delim s = some (w, rest)) :
    tokens delim s = w :: tokens delim rest := by
  rw [tokens]
  split
  · next h' => simp [h] at h'
  · next tok rest' h' =>
    rw [h] at h'
    obtain ⟨rfl, rfl⟩ := Prod.mk.inj (Option.some.inj h')
    rfl

@[simp] theorem tokens_nil : tokens delim [] = [] := tokens_of_none rfl

/-- A delimiter in front is passed over. -/
theorem tokens_delim : tokens delim (delim :: s) = tokens delim s := by
  have hstrtok : strtok delim (delim :: s) = strtok delim s := by
    unfold strtok
    rw [List.dropWhile_cons_of_pos (by simp)]
  cases h : strtok delim s with
  | none => rw [tokens_of_none h, tokens_of_none (hstrtok.trans h)]
  | some p =>
    obtain ⟨tok, rest⟩ := p
    rw [tokens_of_some h, tokens_of_some (hstrtok.trans h)]

/-- A word up to the next delimiter. -/
theorem strtok_word {rest : List Char} (hw : w ≠ []) (hd : delim ∉ w)
    (hrest : rest = [] ∨ ∃ s, rest = delim :: s) :
    strtok delim (w ++ rest) = some (w, rest.drop 1) := by
  cases w with
  | nil => exact absurd rfl hw
  | cons c w =>
    have hc : (c == delim) = false := by
      rw [beq_eq_false_iff_ne]
      rintro rfl
      exact hd List.mem_cons_self
    have hall : ∀ x ∈ c :: w, (x != delim) = true := by
      intro x hx
      rw [bne_iff_ne]
      rintro rfl
      exact hd hx
    have hfront : (c :: w ++ rest).dropWhile (· == delim) = c :: (w ++ rest) :=
      List.dropWhile_cons_of_neg (by simp [hc])
    have htake : (c :: w ++ rest).takeWhile (· != delim) = c :: w := by
      rw [List.takeWhile_append_of_pos hall]
      rcases hrest with rfl | ⟨s, rfl⟩ <;> simp
    have hdrop : (c :: w ++ rest).dropWhile (· != delim) = rest := by
      rw [List.dropWhile_append_of_pos hall]
      rcases hrest with rfl | ⟨s, rfl⟩ <;> simp
    unfold strtok
    rw [hfront]
    simp only
    rw [← List.cons_append, htake, hdrop]

/-- **A word and what follows it.** -/
theorem tokens_word {rest : List Char} (hw : w ≠ []) (hd : delim ∉ w)
    (hrest : rest = [] ∨ ∃ s, rest = delim :: s) :
    tokens delim (w ++ rest) = w :: tokens delim rest := by
  rw [tokens_of_some (strtok_word hw hd hrest)]
  rcases hrest with rfl | ⟨s, rfl⟩
  · rfl
  · rw [tokens_delim, List.drop_one, List.tail_cons]

/-- **There are no more words than delimiters tell.** -/
theorem length_tokens_le (s : List Char) : (tokens delim s).length ≤ 1 + s.count delim := by
  induction hn : s.length using Nat.strong_induction_on generalizing s with
  | _ n ih =>
    cases h : strtok delim s with
    | none =>
      rw [tokens_of_none h]
      exact Nat.zero_le _
    | some p =>
      obtain ⟨tok, rest⟩ := p
      have hrest := ih rest.length (hn ▸ length_lt_of_strtok h) rest rfl
      rw [tokens_of_some h, List.length_cons]
      have hstr := h
      unfold strtok at hstr
      split at hstr
      · cases hstr
      simp only [Option.some.injEq, Prod.mk.injEq] at hstr
      obtain ⟨-, rfl⟩ := hstr
      -- what is left lies behind a delimiter, or there is nothing left
      cases hs : (s.dropWhile (· == delim)).dropWhile (· != delim) with
      | nil =>
        simp
      | cons c rest =>
        have hc : c = delim := by
          have := List.head?_dropWhile_not (· != delim) (s.dropWhile (· == delim))
          rw [hs] at this
          simpa using this
        have hsub : (c :: rest).count delim ≤ s.count delim := by
          rw [← hs]
          exact ((List.dropWhile_sublist _).trans (List.dropWhile_sublist _)).count_le delim
        rw [hs, List.drop_one, List.tail_cons] at hrest
        rw [hc, List.count_cons_self] at hsub
        rw [List.drop_one, List.tail_cons]
        omega

end Tokens

/-! ## Lines -/

/-- At most so many characters, as far as the end of the line. -/
def readLine : ℕ → List Char → List Char
  | 0, _ => []
  | _, [] => []
  | k + 1, c :: s => if c = '\n' then [c] else c :: readLine k s

/-- **`fgets`** into a buffer of a size: no more than one character less than that,
and no further than the end of the line, which is kept. -/
def fgets (size : ℕ) (s : List Char) : List Char := readLine (size - 1) s

/-- The string up to the newline `strchr` finds. -/
def cutNewline (s : List Char) : List Char := s.takeWhile (· != '\n')

/-- **A line that fits the buffer** is read whole. -/
theorem cutNewline_fgets {size : ℕ} {line rest : List Char} (hn : '\n' ∉ line)
    (hlen : line.length < size) : cutNewline (fgets size (line ++ '\n' :: rest)) = line := by
  have key : ∀ k (line : List Char), '\n' ∉ line → line.length ≤ k →
      cutNewline (readLine k (line ++ '\n' :: rest)) = line := by
    intro k line
    induction line generalizing k with
    | nil =>
      intro _ _
      cases k <;> simp [readLine, cutNewline]
    | cons c line ih =>
      intro hn hk
      have hc : c ≠ '\n' := fun h => hn (h ▸ List.mem_cons_self)
      obtain ⟨k, rfl⟩ : ∃ j, k = j + 1 := ⟨k - 1, by simp only [List.length_cons] at hk; omega⟩
      have hrest := ih k (fun h => hn (List.mem_cons_of_mem c h)) (by simpa using hk)
      unfold cutNewline at hrest ⊢
      rw [List.cons_append, readLine, if_neg hc,
        List.takeWhile_cons_of_pos (by simpa using hc), hrest]
  exact key (size - 1) line hn (by omega)

end CString

end Common

end CLSmith
