import CLSmith.Launcher.Arguments
/-!
# The dimensions main accepts

The part of `main` that reads `-g` and `-l`. The number of dimensions is
counted from the commas, the sizes come from `strtok`, which passes over empty
fields; an entry no field was read for is left as it was allocated, and to
read it is a fault here, as is a division by zero.
-/

namespace CLSmith

namespace Launcher

namespace Dimensions

open Common Common.CString

/-- What goes wrong without a message: memory is read that nothing has written, or the
launcher divides by zero. -/
inductive Fault
  | unsetEntry | divisionByZero
deriving DecidableEq

/-- The geometry `main` goes on with: both arrays, and what it has counted from them. -/
structure Accepted where
  localSize : Sizes
  globalSize : Sizes
  totalThreads : ℤ
  noGroups : ℤ

/-- `a[d]`. -/
def Sizes.read (a : Sizes) (d : ℕ) : Except Fault ℕ :=
  match a.entries[d]? with
  | some v => .ok v
  | none => .error .unsetEntry

/-- The debug output of an array. -/
def Sizes.print (a : Sizes) : ℕ → ℕ → Except Fault Unit
  | 0, _ => .ok ()
  | n + 1, i => do
    let _ ← a.read i
    a.print n (i + 1)

variable (localSize globalSize : Sizes)

/-- The loop that rejects a local size greater than the global one. -/
def localGreater : ℕ → ℕ → Except Fault Bool
  | 0, _ => .ok false
  | n + 1, d => do
    let l ← localSize.read d
    let g ← globalSize.read d
    if l > g then .ok true else localGreater n (d + 1)

/-- `x *= v` for an `int` and a `size_t`. -/
def mulInt (x : ℤ) (v : ℕ) : ℤ := IntTy.int.wrap (sizeT.wrap x * v)

/-- The loop over `total_threads` and `no_groups`. -/
def workUnits : ℕ → ℕ → ℤ → ℤ → Except Fault (ℤ × ℤ)
  | 0, _, totalThreads, noGroups => .ok (totalThreads, noGroups)
  | n + 1, i, totalThreads, noGroups => do
    let g ← globalSize.read i
    let l ← localSize.read i
    if l = 0 then .error .divisionByZero
    else workUnits n (i + 1) (mulInt totalThreads g) (mulInt noGroups (g / l))

/-- The checks of the dimensions and the totals, without a geometry where `main`
prints why and returns. -/
def checks : Except Fault (Option Accepted) :=
  if globalSize.dim ≠ localSize.dim then return none
  else if localSize.dim > 3 then return none
  else do
    if ← localGreater localSize globalSize (localSize.dim - 1) 1 then return none
    let (totalThreads, noGroups) ← workUnits localSize globalSize localSize.dim 0 1 1
    return some ⟨localSize, globalSize, totalThreads, noGroups⟩

/-- **The parsing and the checks** of `main`. With `---debug` both arrays are printed
first, in their whole length, and an element that nothing wrote may be read. -/
def main (debugBuild : Bool) (localDims globalDims : List Char) :
    Except Fault (Option Accepted) := do
  let localSize := parse localDims defLocalSize.toNat
  let globalSize := parse globalDims defGlobalSize.toNat
  if debugBuild then
    globalSize.print globalSize.dim 0
    localSize.print localSize.dim 0
  checks localSize globalSize

/-! ## What the loops read -/

section Loops

variable {localSize globalSize : Sizes} {n d : ℕ}

theorem bind_eq_ok {α β : Type} {x : Except Fault α} {f : α → Except Fault β} {b : β} :
    (x >>= f) = .ok b ↔ ∃ a, x = .ok a ∧ f a = .ok b := by
  cases x with
  | error h => simp [bind, Except.bind]
  | ok a => simp [bind, Except.bind]

theorem read_eq_ok {a : Sizes} {v : ℕ} : a.read d = .ok v ↔ a.entries[d]? = some v := by
  unfold Sizes.read
  cases a.entries[d]? <;> simp

/-- All entries are set. -/
def Sizes.Full (a : Sizes) : Prop := a.entries.length = a.dim

theorem print_eq_ok {a : Sizes} : a.print n d = .ok () ↔ ∀ j < n, d + j < a.entries.length := by
  induction n generalizing d with
  | zero => simp [Sizes.print]
  | succ n ih =>
    rw [Sizes.print, bind_eq_ok]
    constructor
    · rintro ⟨v, hv, hrest⟩ j hj
      obtain ⟨hd, -⟩ := List.getElem?_eq_some_iff.mp (read_eq_ok.mp hv)
      cases j with
      | zero => exact hd
      | succ j =>
        have := ih.mp hrest j (by omega)
        omega
    · intro h
      have hd := h 0 (by omega)
      refine ⟨a.entries[d], read_eq_ok.mpr (List.getElem?_eq_getElem hd), ih.mpr fun j hj => ?_⟩
      have := h (j + 1) (by omega)
      omega

/-- In a dimension from `d` on, both sizes are set and the local one is greater. -/
def Greater (localSize globalSize : Sizes) (d : ℕ) : Prop :=
  ∃ i l g, d ≤ i ∧ localSize.entries[i]? = some l ∧ globalSize.entries[i]? = some g ∧ g < l

theorem localGreater_true (h : localGreater localSize globalSize n d = .ok true) :
    Greater localSize globalSize d := by
  induction n generalizing d with
  | zero => cases h
  | succ n ih =>
    obtain ⟨l, hl, h⟩ := bind_eq_ok.mp h
    obtain ⟨g, hg, h⟩ := bind_eq_ok.mp h
    rw [read_eq_ok] at hl hg
    split at h
    · next hlt => exact ⟨d, l, g, Nat.le_refl d, hl, hg, hlt⟩
    · obtain ⟨i, l', g', hi, hrest⟩ := ih h
      exact ⟨i, l', g', by omega, hrest⟩

/-- A size that is greater is found before an unset entry is read. -/
theorem localGreater_of_greater (h : Greater localSize globalSize d)
    (hn : localSize.entries.length ≤ d + n) :
    localGreater localSize globalSize n d = .ok true := by
  induction n generalizing d with
  | zero =>
    obtain ⟨i, l, g, hi, hl, -⟩ := h
    obtain ⟨hlt, -⟩ := List.getElem?_eq_some_iff.mp hl
    omega
  | succ n ih =>
    obtain ⟨i, l, g, hi, hl, hg, hlt⟩ := h
    obtain ⟨hil, -⟩ := List.getElem?_eq_some_iff.mp hl
    obtain ⟨hig, -⟩ := List.getElem?_eq_some_iff.mp hg
    have hld : d < localSize.entries.length := by omega
    have hgd : d < globalSize.entries.length := by omega
    rw [localGreater]
    refine bind_eq_ok.mpr ⟨_, read_eq_ok.mpr (List.getElem?_eq_getElem hld), ?_⟩
    refine bind_eq_ok.mpr ⟨_, read_eq_ok.mpr (List.getElem?_eq_getElem hgd), ?_⟩
    split
    · rfl
    · next hle =>
      -- the greater one lies behind
      have hne : i ≠ d := by
        rintro rfl
        rw [List.getElem?_eq_getElem hld] at hl
        rw [List.getElem?_eq_getElem hgd] at hg
        cases hl
        cases hg
        omega
      exact ih ⟨i, l, g, by omega, hl, hg, hlt⟩ (by omega)

theorem localGreater_of_not (h : ¬ Greater localSize globalSize d)
    (hl : d + n ≤ localSize.entries.length) (hg : d + n ≤ globalSize.entries.length) :
    localGreater localSize globalSize n d = .ok false := by
  induction n generalizing d with
  | zero => rfl
  | succ n ih =>
    have hld := List.getElem?_eq_getElem (show d < localSize.entries.length by omega)
    have hgd := List.getElem?_eq_getElem (show d < globalSize.entries.length by omega)
    rw [localGreater]
    refine bind_eq_ok.mpr ⟨_, read_eq_ok.mpr hld, bind_eq_ok.mpr ⟨_, read_eq_ok.mpr hgd, ?_⟩⟩
    have hle : ¬ localSize.entries[d] > globalSize.entries[d] := fun hlt =>
      h ⟨d, _, _, Nat.le_refl d, hld, hgd, hlt⟩
    rw [if_neg hle]
    refine ih ?_ (by omega) (by omega)
    rintro ⟨i, l, g, hi, hrest⟩
    exact h ⟨i, l, g, by omega, hrest⟩

/-- The last loop reads every entry and divides by every local size. -/
theorem workUnits_ok {x y : ℤ} : (∃ r, workUnits localSize globalSize n d x y = .ok r) ↔
    ∀ j < n, d + j < globalSize.entries.length ∧
      ∃ l, localSize.entries[d + j]? = some l ∧ l ≠ 0 := by
  induction n generalizing d x y with
  | zero => simp [workUnits]
  | succ n ih =>
    constructor
    · rintro ⟨r, h⟩ j hj
      obtain ⟨g, hg, h⟩ := bind_eq_ok.mp h
      obtain ⟨l, hl, h⟩ := bind_eq_ok.mp h
      rw [read_eq_ok] at hl hg
      split at h
      · cases h
      · next hne =>
        cases j with
        | zero => exact ⟨(List.getElem?_eq_some_iff.mp hg).1, l, hl, hne⟩
        | succ j =>
          have hj' := ih.mp ⟨r, h⟩ j (by omega)
          rwa [show d + 1 + j = d + (j + 1) by omega] at hj'
    · intro h
      obtain ⟨hg, l, hl, hne⟩ := h 0 (by omega)
      obtain ⟨r, hr⟩ := (ih (d := d + 1) (x := mulInt x globalSize.entries[d])
        (y := mulInt y (globalSize.entries[d] / l))).mpr fun j hj => by
          have hj' := h (j + 1) (by omega)
          rwa [show d + (j + 1) = d + 1 + j by omega] at hj'
      refine ⟨r, bind_eq_ok.mpr ⟨_, read_eq_ok.mpr (List.getElem?_eq_getElem hg), ?_⟩⟩
      refine bind_eq_ok.mpr ⟨l, read_eq_ok.mpr hl, ?_⟩
      rw [if_neg hne]
      exact hr

end Loops

/-! ## Acceptance -/

theorem parse_length_le (dims : List Char) (dflt : ℕ) :
    (parse dims dflt).entries.length ≤ (parse dims dflt).dim := by
  unfold parse
  split
  · exact Nat.le_refl 1
  · rw [List.length_map]
    exact length_tokens_le dims

/-- The geometry is what the arguments say, and what the checks require. -/
def Specified (localDims globalDims : List Char) (a : Accepted) : Prop :=
  a.localSize = parse localDims defLocalSize.toNat ∧
    a.globalSize = parse globalDims defGlobalSize.toNat ∧ a.localSize.Full ∧ a.globalSize.Full ∧
    a.localSize.dim = a.globalSize.dim ∧ (∀ v ∈ a.localSize.entries, 1 ≤ v) ∧
    ¬ Greater a.localSize a.globalSize 1

/-- **The arguments are handled**: rejected, or a specified geometry, and nothing
that goes wrong on the way. -/
def Handled (debugBuild : Bool) (localDims globalDims : List Char) : Prop :=
  ∃ r, main debugBuild localDims globalDims = .ok r ∧
    ∀ a, r = some a → Specified localDims globalDims a

/-- **No field is empty and no local size zero**, unless the arguments are
rejected for their dimensions before an entry is read, or for a greater local
size. -/
def Clean (debugBuild : Bool) (l g : Sizes) : Prop :=
  (debugBuild = true → g.Full ∧ l.Full) ∧
    (g.dim ≠ l.dim ∨ l.dim > 3 ∨ Greater l g 1 ∨ g.Full ∧ l.Full ∧ ∀ v ∈ l.entries, v ≠ 0)

section Checks

variable {l g : Sizes}

/-- What the checks let through is full, without a zero and not greater. -/
theorem checks_some {a : Accepted} (hl : l.entries.length ≤ l.dim) (hg : g.entries.length ≤ g.dim)
    (h : checks l g = .ok (some a)) :
    a.localSize = l ∧ a.globalSize = g ∧ g.dim = l.dim ∧ g.Full ∧ l.Full ∧
      (∀ v ∈ l.entries, v ≠ 0) ∧ ¬ Greater l g 1 := by
  unfold checks at h
  split at h
  · cases h
  split at h
  · cases h
  next hdim _ =>
    have hdim' : g.dim = l.dim := not_not.mp hdim
    obtain ⟨b, hb, h⟩ := bind_eq_ok.mp h
    split at h
    · cases h
    next hnot =>
      obtain ⟨r, hr, h⟩ := bind_eq_ok.mp h
      cases h
      -- The loop over the work units reads every entry and divides by the local ones.
      have hall := workUnits_ok.mp ⟨r, hr⟩
      have hfull : g.Full ∧ l.Full := by
        rcases Nat.eq_zero_or_pos l.dim with h0 | hpos
        · unfold Sizes.Full
          omega
        · obtain ⟨hgl, v, hv, -⟩ := hall (l.dim - 1) (by omega)
          obtain ⟨hll, -⟩ := List.getElem?_eq_some_iff.mp hv
          unfold Sizes.Full
          omega
      refine ⟨rfl, rfl, hdim', hfull.1, hfull.2, ?_, ?_⟩
      · intro v hv
        obtain ⟨i, hi, rfl⟩ := List.getElem_of_mem hv
        obtain ⟨-, v', hv', hne⟩ := hall i (by omega)
        rw [Nat.zero_add, List.getElem?_eq_getElem hi] at hv'
        cases hv'
        exact hne
      · intro hgr
        -- A local entry greater than its global one is found, and the sizes are rejected.
        rw [localGreater_of_greater hgr (by omega)] at hb
        cases hb
        exact hnot rfl

theorem checks_ok (hl : l.entries.length ≤ l.dim) (hg : g.entries.length ≤ g.dim) :
    (∃ r, checks l g = .ok r) ↔
      (g.dim ≠ l.dim ∨ l.dim > 3 ∨ Greater l g 1 ∨ g.Full ∧ l.Full ∧ ∀ v ∈ l.entries, v ≠ 0) := by
  constructor
  · rintro ⟨r, hr⟩
    cases r with
    | some a =>
      obtain ⟨-, -, -, hgf, hlf, hne, -⟩ := checks_some hl hg hr
      exact .inr (.inr (.inr ⟨hgf, hlf, hne⟩))
    | none =>
      unfold checks at hr
      split at hr
      · next hdim => exact .inl hdim
      split at hr
      · next hthree => exact .inr (.inl hthree)
      obtain ⟨b, hb, hr⟩ := bind_eq_ok.mp hr
      split at hr
      · next hb' =>
        subst hb'
        exact .inr (.inr (.inl (localGreater_true hb)))
      · obtain ⟨p, -, hp⟩ := bind_eq_ok.mp hr
        cases hp
  · intro h
    unfold checks
    by_cases hdim : g.dim ≠ l.dim
    · exact ⟨none, if_pos hdim⟩
    by_cases hthree : l.dim > 3
    · exact ⟨none, (if_neg hdim).trans (if_pos hthree)⟩
    rw [if_neg hdim, if_neg hthree]
    -- a greater local size ends the checks before an unset entry of the others is read
    by_cases hgr : Greater l g 1
    · refine ⟨none, bind_eq_ok.mpr ⟨true, localGreater_of_greater hgr (by omega), ?_⟩⟩
      exact if_pos rfl
    · obtain ⟨hgf, hlf, hne⟩ : g.Full ∧ l.Full ∧ ∀ v ∈ l.entries, v ≠ 0 := by tauto
      unfold Sizes.Full at hgf hlf
      rw [not_not] at hdim
      have hunits : ∃ r, workUnits l g l.dim 0 1 1 = .ok r := by
        refine workUnits_ok.mpr fun j hj => ?_
        have hjl := List.getElem?_eq_getElem (show 0 + j < l.entries.length by omega)
        exact ⟨by omega, _, hjl, hne _ (List.mem_of_getElem? hjl)⟩
      obtain ⟨r, hr⟩ := hunits
      rcases Nat.eq_zero_or_pos l.dim with h0 | hpos
      · refine ⟨_, bind_eq_ok.mpr ⟨false, ?_, bind_eq_ok.mpr ⟨r, hr, rfl⟩⟩⟩
        rw [h0]
        rfl
      · exact ⟨_, bind_eq_ok.mpr ⟨false, localGreater_of_not hgr (by omega) (by omega),
          bind_eq_ok.mpr ⟨r, hr, rfl⟩⟩⟩

/-- The debug output reads every entry. -/
theorem print_full {a : Sizes} (ha : a.entries.length ≤ a.dim) :
    a.print a.dim 0 = .ok () ↔ a.Full := by
  rw [print_eq_ok, Sizes.Full]
  constructor
  · intro h
    by_contra hne
    have := h a.entries.length (by omega)
    omega
  · intro h j hj
    omega

end Checks

variable (debugBuild : Bool) (localDims globalDims : List Char)

theorem main_eq_ok {r : Option Accepted} :
    main debugBuild localDims globalDims = .ok r ↔
      (debugBuild = true → (parse globalDims defGlobalSize.toNat).Full ∧
        (parse localDims defLocalSize.toNat).Full) ∧
      checks (parse localDims defLocalSize.toNat) (parse globalDims defGlobalSize.toNat) =
        .ok r := by
  have hl := print_full (parse_length_le localDims defLocalSize.toNat)
  have hg := print_full (parse_length_le globalDims defGlobalSize.toNat)
  cases debugBuild with
  | false => simp [main]
  | true =>
    rw [← hl, ← hg]
    unfold main
    simp only [if_true, bind_eq_ok, forall_const]
    constructor
    · rintro ⟨_, h₁, _, h₂, h₃⟩
      exact ⟨⟨h₁, h₂⟩, h₃⟩
    · rintro ⟨⟨h₁, h₂⟩, h₃⟩
      exact ⟨(), h₁, (), h₂, h₃⟩

/-- **What becomes of the arguments**: they are handled exactly where no field is
empty and no local size zero, rejections apart. The entry of an empty field is never
set, and the groups are counted by a division. -/
theorem handled_iff :
    Handled debugBuild localDims globalDims ↔
      Clean debugBuild (parse localDims defLocalSize.toNat)
        (parse globalDims defGlobalSize.toNat) := by
  have hl := parse_length_le localDims defLocalSize.toNat
  have hg := parse_length_le globalDims defGlobalSize.toNat
  unfold Handled Clean
  rw [← checks_ok hl hg]
  simp only [main_eq_ok]
  constructor
  · rintro ⟨r, ⟨hdebug, hr⟩, -⟩
    exact ⟨hdebug, r, hr⟩
  · rintro ⟨hdebug, r, hr⟩
    refine ⟨r, ⟨hdebug, hr⟩, ?_⟩
    rintro a rfl
    obtain ⟨rfl', rfl'', hdim, hgf, hlf, hne, hgr⟩ := checks_some hl hg hr
    unfold Specified
    rw [rfl', rfl'']
    exact ⟨rfl, rfl, hlf, hgf, hdim.symm, fun v hv => Nat.pos_of_ne_zero (hne v hv), hgr⟩

/-- One comma and one number: the second entry is read as it was allocated. -/
theorem not_handled_comma : ¬ Handled false "4,".toList "8,8".toList := by
  have htok : tokens ',' ['4', ','] = [['4']] := by
    have h : tokens ',' (['4'] ++ [',']) = ['4'] :: tokens ',' [','] :=
      tokens_word (by decide) (by decide) (.inr ⟨[], rfl⟩)
    rwa [tokens_delim, tokens_nil] at h
  have htok' : tokens ',' ['8', ',', '8'] = [['8'], ['8']] := by
    have h : tokens ',' (['8'] ++ [',', '8']) = ['8'] :: tokens ',' [',', '8'] :=
      tokens_word (by decide) (by decide) (.inr ⟨['8'], rfl⟩)
    have h' : tokens ',' (['8'] ++ []) = ['8'] :: tokens ',' [] :=
      tokens_word (by decide) (by decide) (.inl rfl)
    rw [tokens_nil, List.append_nil] at h'
    rwa [tokens_delim, h'] at h
  have hl : parse "4,".toList defLocalSize.toNat = ⟨2, [4]⟩ := by
    show (⟨2, (tokens ',' ['4', ',']).map toSize⟩ : Sizes) = _
    rw [htok]
    rfl
  have hg : parse "8,8".toList defGlobalSize.toNat = ⟨2, [8, 8]⟩ := by
    show (⟨2, (tokens ',' ['8', ',', '8']).map toSize⟩ : Sizes) = _
    rw [htok']
    rfl
  rintro ⟨r, hr, -⟩
  have hchecks := ((main_eq_ok false _ _).mp hr).2
  rw [hl, hg] at hchecks
  exact nomatch hchecks

end Dimensions

end Launcher

end CLSmith
