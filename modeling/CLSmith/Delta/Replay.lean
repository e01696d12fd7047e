import CLSmith.Common.System
import CLSmith.Delta
import CLSmith.Probabilities.RoundTrip
import Mathlib.Data.List.Infix
import Mathlib.Data.List.TakeWhile
/-!
# Files of a delta reduction are replayed

What a run leaves in its file makes the same program again, whether it was
recorded or reduced from another file, and however often. Of a file that was
written by hand, replay accepts what the generator could have drawn itself, with
any side of a coin and any digit of the table.
-/

namespace CLSmith

namespace Delta

open Common CString StdString
open Probabilities (lines lines_append)

variable {α : Type} {P : Program α} {l l' s ps : List ValuePair} {p : ValuePair} {c : Choice}
variable {k n m x : ℕ} {a b : α}

/-! ## The text of a sequence -/

/-- The file of a list of numbers. -/
def textOf (l : List ValuePair) : List Char := l.flatMap outputOne

theorem str2int_decimal (h : n < 2 ^ 31) : str2int (decimal n) = n := by
  have hne : (decimal n).dropWhile CString.isSpace ≠ [] := by
    intro hnil
    have hall := List.dropWhile_eq_nil_iff.mp hnil
    obtain ⟨c, hc⟩ := List.exists_mem_of_ne_nil _ (decimal_ne_nil n)
    have hdigit := isDigit_of_mem_decimal n c hc
    have hspace := hall c hc
    have hrange : 48 ≤ c.val.toNat := by
      have : 48 ≤ c.val.toNat ∧ c.val.toNat ≤ 57 := by
        simpa [Char.isDigit, UInt32.le_iff_toNat_le] using hdigit
      exact this.1
    -- the blanks are the characters below the digits
    simp only [CString.isSpace, Bool.or_eq_true, beq_iff_eq] at hspace
    rcases hspace with ((((h | h) | h) | h) | h) | h <;> rw [h] at hrange <;>
      exact absurd hrange (by decide)
  unfold str2int
  rw [if_neg hne, atoi_decimal]
  omega

theorem number_decimal (h : n < 2 ^ 31) : number (decimal n) = some n := by
  unfold number
  rw [str2int_decimal h, if_neg (by omega), Int.toNat_natCast]

/-- Digits are neither blanks nor separators. -/
theorem not_mem_decimal {d : Char} (hd : d.isDigit = false) : d ∉ decimal n := by
  intro h
  rw [isDigit_of_mem_decimal n d h] at hd
  cases hd

theorem takeWhile_blank (T : List Char) :
    (decimal n ++ T).takeWhile (· == ' ') = [] := by
  cases hs : decimal n with
  | nil => exact absurd hs (decimal_ne_nil n)
  | cons c t =>
    have hc : c ≠ ' ' := by
      rintro rfl
      refine not_mem_decimal (n := n) (d := ' ') rfl ?_
      rw [hs]
      exact List.mem_cons_self
    rw [List.cons_append, List.takeWhile_cons_of_neg (by simpa using hc)]

/-- **A line is read as it was printed.** -/
theorem parseSequence_pair (hn : n < 2 ^ 31) (hm : m < 2 ^ 31) :
    parseSequence (decimal n ++ sepChar :: decimal m) sepChar = some [n, m] := by
  have hno : ∀ {i}, sepChar ∉ decimal i := not_mem_decimal rfl
  have hfirst : find ([] ++ (decimal n ++ sepChar :: decimal m)) sepChar 0 =
      some (0 + (decimal n).length) := find_split rfl hno
  have hsubn : substrLen ([] ++ (decimal n ++ sepChar :: decimal m)) 0
      (0 + (decimal n).length - 0) = some (decimal n) := substrLen_append rfl (by omega)
  have hsplit : decimal n ++ sepChar :: decimal m = (decimal n ++ [sepChar]) ++ decimal m := by
    simp
  have hlen : (decimal n ++ [sepChar]).length = 0 + (decimal n).length + 1 := by
    simp
  have hlast : find ((decimal n ++ [sepChar]) ++ decimal m) sepChar
      (0 + (decimal n).length + 1) = none := find_none hlen hno
  have hsubm : substr ((decimal n ++ [sepChar]) ++ decimal m) (0 + (decimal n).length + 1) =
      some (decimal m) := substr_append hlen
  have hskip : ((decimal n ++ [sepChar] ++ decimal m).drop
      (0 + (decimal n).length + 1)).takeWhile (· == ' ') = [] := by
    rw [← hlen, List.drop_left]
    have := takeWhile_blank (n := m) []
    rwa [List.append_nil] at this
  rw [List.nil_append] at hfirst hsubn
  -- two rounds of the loop
  obtain ⟨f, hf⟩ : ∃ f, (decimal n ++ sepChar :: decimal m).length + 1 = f + 2 :=
    ⟨(decimal n).length + (decimal m).length, by simp; omega⟩
  unfold parseSequence
  rw [hf, parseFrom, List.drop_zero, takeWhile_blank, List.length_nil, Nat.add_zero]
  simp only [hfirst, hsubn]
  rw [hsplit, parseFrom, hskip, List.length_nil, Nat.add_zero]
  simp only [hlast, hsubm, number_decimal hn, number_decimal hm, Option.bind_eq_bind,
    Option.bind_some]

/-- Values and bounds that an `int` holds. -/
def Ints (l : List ValuePair) : Prop := ∀ p ∈ l, p.value < 2 ^ 31 ∧ p.bound < 2 ^ 31

/-- **A sequence is read as it was written.** -/
theorem initSequence_textOf (h : Ints l) : initSequence (textOf l) = some l := by
  induction l with
  | nil => rfl
  | cons p l ih =>
    obtain ⟨hv, hb⟩ := h p List.mem_cons_self
    have hrest : initLines (lines (textOf l)) = some l := ih fun q hq =>
      h q (List.mem_cons_of_mem _ hq)
    have htext : textOf (p :: l) =
        (decimal p.value ++ sepChar :: decimal p.bound) ++ '\n' :: textOf l := by
      simp [textOf, outputOne]
    have hline : '\n' ∉ decimal p.value ++ sepChar :: decimal p.bound := by
      simp only [List.mem_append, List.mem_cons, not_or]
      exact ⟨not_mem_decimal rfl, by decide, not_mem_decimal rfl⟩
    have hempty : StringUtils.emptyLine (decimal p.value ++ sepChar :: decimal p.bound) =
      false := by
      rw [StringUtils.emptyLine, List.all_eq_false]
      exact ⟨sepChar, by simp, by decide⟩
    unfold initSequence
    rw [htext, lines_append hline, initLines, hempty, if_neg Bool.false_ne_true,
      parseSequence_pair hv hb, hrest]
    rfl

/-! ## What a program draws -/

/-- The number is one of those that were asked for. -/
def Choice.Admits (c : Choice) (p : ValuePair) : Prop :=
  p.bound = c.bound ∧ c.rejects p.value = false ∧ p.value < c.bound

/-- The number stands for a character of the table. -/
def Digits.Spells (d : Digits) (p : ValuePair) (ch : Char) : Prop :=
  p.bound = d.bound ∧ d.table[p.value]? = some ch

theorem Digits.length_table (d : Digits) : d.table.length = d.bound + 1 := by
  cases d <;> rfl

theorem Digits.Spells.value_le {d : Digits} {ch : Char} (h : d.Spells p ch) :
    p.value ≤ d.bound := by
  have hlt := (List.getElem?_eq_some_iff.mp h.2).1
  rw [d.length_table] at hlt
  omega

/-- One table, one string. -/
theorem Digits.spells_unique {d : Digits} {str str' : List Char}
    (h : List.Forall₂ d.Spells l str) (h' : List.Forall₂ d.Spells l str') : str = str' := by
  induction h generalizing str' with
  | nil =>
    cases h'
    rfl
  | cons hp _ ih =>
    cases h' with
    | cons hp' hrest =>
      obtain rfl := Option.some.inj (hp.2.symm.trans hp'.2)
      rw [ih hrest]

namespace Program

/-- **The numbers of a whole run**, and the program that comes of them: those of
each choice, and of a string of digits as many as it is long. -/
def Runs : Program α → List ValuePair → α → Prop
  | .done b, l, a => l = [] ∧ b = a
  | .choose _ _, [], _ => False
  | .choose c next, p :: l, a => c.Admits p ∧ (next p.value).Runs l a
  | .digits d num next, l, a => ∃ l₁ l₂ str, l = l₁ ++ l₂ ∧ l₁.length = num ∧
      List.Forall₂ d.Spells l₁ str ∧ (next str).Runs l₂ a

/-- No coin falls on a side it cannot fall on, and no digit is the null at the end
of the table. -/
def Possible : Program α → List ValuePair → Prop
  | .choose c next, p :: l => c.Possible p.value ∧ (next p.value).Possible l
  | .digits d num next, l => (∀ p ∈ l.take num, p.value < d.bound) ∧
      ∀ str, List.Forall₂ d.Spells (l.take num) str → (next str).Possible (l.drop num)
  | _, _ => True

/-- All bounds are of type `int`. -/
def Bounded : Program α → Prop
  | .done _ => True
  | .choose c next => c.bound < 2 ^ 31 ∧ ∀ v, (next v).Bounded
  | .digits _ _ next => ∀ str, (next str).Bounded

theorem ints_of_spells {d : Digits} {str : List Char} (h : List.Forall₂ d.Spells l str) :
    Ints l := by
  have hbound : d.bound ≤ 16 := by cases d <;> decide
  induction h with
  | nil => exact fun p hp => absurd hp List.not_mem_nil
  | cons hp _ ih =>
    have hle := hp.value_le
    have hb := hp.1
    intro q hq
    rcases List.mem_cons.mp hq with rfl | hq
    · omega
    · exact ih q hq

theorem Runs.ints (hP : P.Bounded) (h : P.Runs l a) : Ints l := by
  induction P generalizing l with
  | done b =>
    rw [h.1]
    exact fun p hp => absurd hp List.not_mem_nil
  | choose c next ih =>
    cases l with
    | nil => exact h.elim
    | cons p l =>
      obtain ⟨⟨hbound, -, hlt⟩, hrest⟩ := h
      have hint := hP.1
      intro q hq
      rcases List.mem_cons.mp hq with rfl | hq
      · omega
      · exact ih _ (hP.2 _) hrest q hq
  | digits d num next ih =>
    obtain ⟨l₁, l₂, str, rfl, -, hspells, hrest⟩ := h
    intro q hq
    rcases List.mem_append.mp hq with hq | hq
    · exact ints_of_spells hspells q hq
    · exact ih _ (hP _) hrest q hq

/-- **A run ends where it ends**: no run is a part of another. -/
theorem Runs.unique (h : P.Runs l a) (h' : P.Runs l' b) (hp : l' <+: l) : l' = l ∧ b = a := by
  induction P generalizing l l' with
  | done d => exact ⟨h'.1.trans h.1.symm, h'.2.symm.trans h.2⟩
  | choose c next ih =>
    cases l' with
    | nil => exact h'.elim
    | cons q l' =>
      cases l with
      | nil => exact h.elim
      | cons p l =>
        obtain ⟨rfl, htail⟩ := List.cons_prefix_cons.mp hp
        obtain ⟨hl, hb⟩ := ih _ h.2 h'.2 htail
        exact ⟨by rw [hl], hb⟩
  | digits d num next ih =>
    obtain ⟨l₁, l₂, str, rfl, hnum, hspells, hrest⟩ := h
    obtain ⟨l₁', l₂', str', rfl, hnum', hspells', hrest'⟩ := h'
    -- both strings are spelled by the same numbers
    have hsame : l₁' = l₁ := by
      have hpre : l₁' <+: l₁ ++ l₂ := (List.prefix_append _ _).trans hp
      have htake := List.prefix_iff_eq_take.mp hpre
      rw [hnum', ← hnum, List.take_left] at htake
      exact htake
    subst hsame
    obtain rfl := Digits.spells_unique hspells hspells'
    obtain ⟨hl, hb⟩ := ih _ hrest hrest' ((List.prefix_append_right_inj _).mp hp)
    exact ⟨by rw [hl], hb⟩

end Program

/-! ## One number -/

theorem Choice.of_draw {v : ℕ} {tape tape' : Tape} (h : c.draw tape = some (v, tape')) :
    c.rejects v = false ∧ v < c.bound ∧ c.Possible v := by
  cases c with
  | upto n f =>
    simp only [draw] at h
    split at h
    · cases h
    next hn => exact ⟨rndUpto_filter h, rndUpto_lt (Nat.pos_of_ne_zero hn) h, trivial⟩
  | flipcoin p =>
    simp only [draw] at h
    split at h
    next hp =>
      cases tape with
      | nil => cases h
      | cons y tape =>
        have hv : (decide (y % 100 < p)).toNat = v := by
          simp only [rndFlipcoin, Option.map_some, Option.some.injEq, Prod.mk.injEq] at h
          exact h.1
        have hy : y % 100 < 100 := Nat.mod_lt _ (by omega)
        refine ⟨rfl, ?_, hp, ?_⟩
        · show v < 2
          rw [← hv]
          exact Bool.toNat_lt _
        · by_cases hlt : y % 100 < p
          · simp only [hlt, decide_true, Bool.toNat_true] at hv
            constructor <;> intro h0 <;> omega
          · simp only [hlt, decide_false, Bool.toNat_false] at hv
            constructor <;> intro h0 <;> omega
    next => cases h

/-- A number that is admitted and possible is drawn from the right tape. -/
theorem Choice.exists_draw (h : c.Admits p) (hp : c.Possible p.value) :
    ∃ y, ∀ tape, c.draw (y :: tape) = some (p.value, tape) := by
  obtain ⟨-, hrej, hlt⟩ := h
  have hupto : ∀ (n : ℕ) (f : ℕ → Bool), f p.value = false → p.value < n → ∀ tape,
      rndUpto n f (p.value :: tape) = some (p.value, tape) := by
    intro n f hf hn tape
    rw [rndUpto, Nat.mod_eq_of_lt hn, if_neg (by simp [hf])]
  cases c with
  | upto n f =>
    have hn : n ≠ 0 := by
      simp only [bound] at hlt
      omega
    refine ⟨p.value, fun tape => ?_⟩
    rw [draw, if_neg hn]
    exact hupto n _ hrej hlt tape
  | flipcoin q =>
    obtain ⟨hq, hzero, hone⟩ := hp
    simp only [bound] at hlt
    by_cases hv : p.value = 0
    · have := hzero hv
      refine ⟨99, fun tape => ?_⟩
      rw [draw, if_pos hq, rndFlipcoin, hv]
      have hside : ¬ 99 % 100 < q := by omega
      simp [hside]
    · have hv : p.value = 1 := by omega
      have hside : 0 % 100 < q := by
        have := hone hv
        omega
      refine ⟨0, fun tape => ?_⟩
      rw [draw, if_pos hq, rndFlipcoin, hv]
      simp only [hside, decide_true, Option.map_some, Bool.toNat_true]

/-! ## The numbers so far -/

/-- The map with these numbers, from a key on. -/
def indexed : ℕ → List ValuePair → SeqMap
  | _, [] => []
  | k, p :: l => (k, p) :: indexed (k + 1) l

theorem addNumber_indexed : (indexed k l).addNumber (k + l.length) p = indexed k (l ++ [p]) := by
  induction l generalizing k with
  | nil => rfl
  | cons q l ih =>
    rw [indexed, SeqMap.addNumber, List.length_cons, if_neg (by dsimp only; omega),
      if_neg (by dsimp only; omega), show k + (l.length + 1) = k + 1 + l.length by omega, ih]
    rfl

theorem getSequence_indexed (h : l ≠ []) : (indexed k l).getSequence = some (textOf l) := by
  have hflat : ∀ k, (indexed k l).flatMap (fun e => outputOne e.2) = textOf l := by
    clear h
    induction l with
    | nil => exact fun _ => rfl
    | cons p l ih =>
      intro k
      rw [indexed, List.flatMap_cons, ih]
      rfl
  have hne : indexed k l ≠ [] := by
    cases l with
    | nil => exact absurd rfl h
    | cons p l => exact List.cons_ne_nil _ _
  rw [SeqMap.getSequence, if_neg hne, hflat]

/-- **The generator has read these numbers** of the file `s`, whether or not it is the
current one still. -/
structure Reads (s : List ValuePair) (k : ℕ) (no : Bool) (g : SimpleDeltaRndNumGenerator)
    (ps : List ValuePair) : Prop where
  sequence : g.sequence = s
  pos : g.currentPos = ps.length
  depth : g.randDepth = ps.length
  seqMap : g.seqMap = indexed 0 ps
  read : ps <+: s
  point : k = max 1 g.randomPoint
  reduction : g.noDeltaReduction = no

/-- **The generator has given these numbers**: those of the file `s`, and after
the first `k` of them, unless there is `no` reduction, numbers it has drawn. -/
def Given (s : List ValuePair) (k : ℕ) (no : Bool) : RandomNumber → List ValuePair → Prop
  | .default g, ps => g.randDepth = ps.length ∧ g.seqMap = indexed 0 ps ∧ s.take k <+: ps ∧
      no = false
  | .simpleDelta g _, ps => Reads s k no g ps ∧ (no = false → ps.length < k)

variable {r r' : RandomNumber} {no : Bool}

/-- The current generator is the default one. -/
def RandomNumber.Fresh : RandomNumber → Prop
  | default _ => True
  | simpleDelta _ _ => False

theorem Given.seqMap (h : Given s k no r ps) : r.seqMap = indexed 0 ps := by
  cases r with
  | default g => exact h.2.1
  | simpleDelta g tape => exact h.1.seqMap

/-- Without reduction the numbers given are read, and the file begins with them. -/
theorem Given.read (h : Given s k true r ps) : ps <+: s := by
  cases r with
  | default g => exact absurd h.2.2.2 Bool.noConfusion
  | simpleDelta g tape => exact h.1.read

/-- **One number more of the file**, and the generator that is the current one then. -/
theorem Reads.randomChoice {g g' : SimpleDeltaRndNumGenerator} (tape : Tape) {bound v : ℕ}
    {rejects : ℕ → Bool} (h : Reads s k no g ps)
    (hc : g.randomChoice bound rejects = some (v, g')) :
    ∃ p : ValuePair, p.value = v ∧ p.bound = bound ∧ rejects p.value = false ∧
      Reads s k no g' (ps ++ [p]) ∧ Given s k no (g'.switchToDefaultGenerator tape)
        (ps ++ [p]) := by
  obtain ⟨hseq, hpos, hdepth, hmap, hpre, hk, hno⟩ := h
  unfold SimpleDeltaRndNumGenerator.randomChoice at hc
  split at hc
  · cases hc
  next p hp =>
  split at hc
  next hok =>
    simp only [Option.some.injEq, Prod.mk.injEq] at hc
    obtain ⟨rfl, rfl⟩ := hc
    have hnext : ps ++ [p] <+: s := by
      obtain ⟨t, rfl⟩ := hpre
      rw [hseq, hpos, List.getElem?_append_right (Nat.le_refl _), Nat.sub_self] at hp
      obtain ⟨t', rfl⟩ := List.head?_eq_some_iff.mp (by rwa [List.head?_eq_getElem?])
      exact ⟨t', by simp⟩
    have hmap' : g.seqMap.addNumber g.currentPos p = indexed 0 (ps ++ [p]) := by
      simpa [hpos, hmap] using addNumber_indexed (k := 0) (l := ps)
    have hreads : Reads s k no { g with
        seqMap := g.seqMap.addNumber g.currentPos p
        currentPos := g.currentPos + 1
        randDepth := g.randDepth + 1 } (ps ++ [p]) :=
      ⟨hseq, by simp [hpos], by simp [hdepth], hmap', hnext, hk, hno⟩
    refine ⟨p, rfl, hok.1.symm, hok.2, hreads, ?_⟩
    unfold SimpleDeltaRndNumGenerator.switchToDefaultGenerator
    split
    next hstay =>
      refine ⟨hreads, fun hno' => ?_⟩
      rcases hstay with hstay | hstay
      · exact absurd (hstay.symm.trans (hno.trans hno')) Bool.noConfusion
      · rw [hk, List.length_append, List.length_singleton, ← hdepth]
        exact lt_of_lt_of_le hstay (le_max_right _ _)
    next hswitch =>
      -- the random point is reached: what was read is the first `k` numbers
      rw [not_or] at hswitch
      refine ⟨by simp [hdepth], hmap', ?_, by simpa [hno] using hswitch.1⟩
      have hlen : k ≤ (ps ++ [p]).length := by
        have hpoint : g.randomPoint ≤ g.randDepth + 1 := Nat.le_of_not_lt hswitch.2
        rw [hk, List.length_append, List.length_singleton, ← hdepth]
        exact max_le (Nat.le_add_left 1 _) hpoint
      rw [List.prefix_iff_eq_take.mp hnext]
      exact List.take_prefix_take_left hlen
  next => cases hc

/-- One number more that was drawn. -/
theorem Given.add {g : DefaultRndNumGenerator} {tape : Tape} (h : Given s k no (.default g) ps) :
    Given s k no (.default (g.add tape p.value p.bound)) (ps ++ [p]) := by
  obtain ⟨hdepth, hmap, hpre, hno⟩ := h
  refine ⟨?_, ?_, hpre.trans (List.prefix_append _ _), hno⟩
  · simp [DefaultRndNumGenerator.add, hdepth]
  · simpa [DefaultRndNumGenerator.add, hdepth, hmap] using addNumber_indexed (k := 0) (l := ps)

/-- **One number more.** -/
theorem Given.choose {v : ℕ} (h : Given s k no r ps) (hc : r.choose c = some (v, r')) :
    ∃ p : ValuePair, p.value = v ∧ c.Admits p ∧ Given s k no r' (ps ++ [p]) ∧
      (r.Fresh → c.Possible p.value ∧ r'.Fresh) := by
  cases r with
  | default g =>
    simp only [RandomNumber.choose, DefaultRndNumGenerator.choose, Option.map_map,
      Option.map_eq_some_iff, Prod.exists, Function.comp, Prod.mk.injEq] at hc
    obtain ⟨v, tape, hdraw, rfl, rfl⟩ := hc
    obtain ⟨hrej, hlt, hposs⟩ := Choice.of_draw hdraw
    exact ⟨⟨v, c.bound⟩, rfl, ⟨rfl, hrej, hlt⟩, h.add (p := ⟨v, c.bound⟩),
      fun _ => ⟨hposs, trivial⟩⟩
  | simpleDelta g tape =>
    obtain ⟨⟨x, g'⟩, hrc, hc⟩ := Option.bind_eq_some_iff.mp hc
    obtain ⟨hlt, hc⟩ := Option.ite_none_right_eq_some.mp hc
    cases hc
    obtain ⟨p, rfl, hbound, hrej, -, hgiven⟩ := h.1.randomChoice _ hrc
    exact ⟨p, rfl, ⟨hbound, hrej, hlt⟩, hgiven, False.elim⟩

/-- The digits that are read of the file: the loop keeps to it wherever it ends. -/
theorem Reads.randomDigits {d : Digits} {num : ℕ} {g : SimpleDeltaRndNumGenerator} {tape : Tape}
    {str : List Char} (h : Reads s k no g ps) (hr : Given s k no r ps)
    (hd : g.randomDigits d tape num r = some (str, r')) :
    ∃ l, l.length = num ∧ List.Forall₂ d.Spells l str ∧ Given s k no r' (ps ++ l) := by
  induction num generalizing g r ps str with
  | zero =>
    cases hd
    exact ⟨[], rfl, .nil, by rwa [List.append_nil]⟩
  | succ num ih =>
    obtain ⟨⟨x, g'⟩, hrc, hd⟩ := Option.bind_eq_some_iff.mp hd
    obtain ⟨ch, hch, hd⟩ := Option.bind_eq_some_iff.mp hd
    obtain ⟨⟨str', r₁⟩, hrest, hd⟩ := Option.bind_eq_some_iff.mp hd
    cases hd
    obtain ⟨p, rfl, hbound, -, hreads, hgiven⟩ := h.randomChoice tape hrc
    obtain ⟨l, hlen, hspells, hend⟩ := ih hreads hgiven hrest
    exact ⟨p :: l, by simp [hlen], .cons ⟨hbound, hch⟩ hspells, by simpa using hend⟩

/-- The digits that are drawn. -/
theorem Given.drawDigits {d : Digits} {num : ℕ} {g g' : DefaultRndNumGenerator}
    {str : List Char} (h : Given s k no (.default g) ps)
    (hd : g.randomDigits d num = some (str, g')) :
    ∃ l, l.length = num ∧ List.Forall₂ d.Spells l str ∧ (∀ p ∈ l, p.value < d.bound) ∧
      Given s k no (.default g') (ps ++ l) := by
  have hpos : 0 < d.bound := by cases d <;> decide
  induction num generalizing g ps str with
  | zero =>
    cases hd
    exact ⟨[], rfl, .nil, fun p hp => absurd hp List.not_mem_nil, by rwa [List.append_nil]⟩
  | succ num ih =>
    obtain ⟨⟨x, tape⟩, hdraw, hd⟩ := Option.bind_eq_some_iff.mp hd
    obtain ⟨ch, hch, hd⟩ := Option.bind_eq_some_iff.mp hd
    obtain ⟨⟨str', g₁⟩, hrest, hd⟩ := Option.bind_eq_some_iff.mp hd
    cases hd
    have hlt : x < d.bound := rndUpto_lt hpos hdraw
    obtain ⟨l, hlen, hspells, hbelow, hend⟩ := ih (h.add (p := ⟨x, d.bound⟩)) hrest
    refine ⟨⟨x, d.bound⟩ :: l, by simp [hlen], .cons ⟨rfl, hch⟩ hspells, ?_, by simpa using hend⟩
    intro q hq
    rcases List.mem_cons.mp hq with rfl | hq
    · exact hlt
    · exact hbelow q hq

/-- **A string of digits more.** -/
theorem Given.randomDigits {d : Digits} {num : ℕ} {str : List Char} (h : Given s k no r ps)
    (hd : r.randomDigits d num = some (str, r')) :
    ∃ l, l.length = num ∧ List.Forall₂ d.Spells l str ∧ Given s k no r' (ps ++ l) ∧
      (r.Fresh → (∀ p ∈ l, p.value < d.bound) ∧ r'.Fresh) := by
  cases r with
  | default g =>
    obtain ⟨⟨str', g'⟩, hg, hd⟩ := Option.map_eq_some_iff.mp hd
    cases hd
    obtain ⟨l, hlen, hspells, hbelow, hend⟩ := h.drawDigits hg
    exact ⟨l, hlen, hspells, hend, fun _ => ⟨hbelow, trivial⟩⟩
  | simpleDelta g tape =>
    obtain ⟨l, hlen, hspells, hend⟩ := h.1.randomDigits h hd
    exact ⟨l, hlen, hspells, hend, False.elim⟩

/-- **A whole run.** -/
theorem Given.run (h : Given s k no r ps) (hr : r.run P = some (a, r')) :
    ∃ l, P.Runs l a ∧ Given s k no r' (ps ++ l) ∧ (r.Fresh → P.Possible l) := by
  induction P generalizing r ps with
  | done b =>
    cases hr
    exact ⟨[], ⟨rfl, rfl⟩, by rwa [List.append_nil], fun _ => trivial⟩
  | choose c next ih =>
    rw [RandomNumber.run] at hr
    cases hc : r.choose c with
    | none =>
      rw [hc] at hr
      cases hr
    | some y =>
      rw [hc] at hr
      -- One choice stands for one entry of the list; the rest of the program runs on what is left.
      obtain ⟨p, hp, hadm, hg, hfresh⟩ := h.choose hc
      obtain ⟨l, hruns, hend, hposs⟩ := ih _ hg hr
      rw [← hp] at hruns hposs
      exact ⟨p :: l, ⟨hadm, hruns⟩, by simpa using hend,
        fun hf => ⟨(hfresh hf).1, hposs (hfresh hf).2⟩⟩
  | digits d num next ih =>
    rw [RandomNumber.run] at hr
    cases hd : r.randomDigits d num with
    | none =>
      rw [hd] at hr
      cases hr
    | some y =>
      rw [hd] at hr
      -- A call for digits stands for as many entries as it has digits.
      obtain ⟨l₁, hlen, hspells, hg, hfresh⟩ := h.randomDigits hd
      obtain ⟨l₂, hruns, hend, hposs⟩ := ih _ hg hr
      refine ⟨l₁ ++ l₂, ⟨l₁, l₂, y.1, rfl, hlen, hspells, hruns⟩, ?_, fun hf => ?_⟩
      · rwa [← List.append_assoc]
      · obtain ⟨hbelow, hf'⟩ := hfresh hf
        unfold Program.Possible
        rw [List.take_left' hlen, List.drop_left' hlen]
        refine ⟨hbelow, fun str hstr => ?_⟩
        obtain rfl := Digits.spells_unique hspells hstr
        exact hposs hf'

/-- And the file it leaves. -/
theorem Given.output {file : List Char} (h : Given s k no r []) (hr : r.output P = some (a, file)) :
    ∃ l, l ≠ [] ∧ P.Runs l a ∧ file = textOf l ∧ (r.Fresh → P.Possible l) ∧
      ∃ r', r.run P = some (a, r') ∧ Given s k no r' l := by
  unfold RandomNumber.output at hr
  obtain ⟨y, hrun, hy⟩ := Option.bind_eq_some_iff.mp hr
  obtain ⟨text, hseq, heq⟩ := Option.map_eq_some_iff.mp hy
  obtain ⟨rfl, rfl⟩ := Prod.mk.inj heq
  obtain ⟨l, hl, hg, hposs⟩ := h.run hrun
  rw [List.nil_append] at hg
  rw [hg.seqMap] at hseq
  have hne : l ≠ [] := by
    rintro rfl
    cases hseq
  rw [getSequence_indexed hne] at hseq
  exact ⟨l, hne, hl, (Option.some.inj hseq).symm, hposs, y.2, hrun, hg⟩

/-! ## Replay -/

/-- With `--no-delta-reduction` the number in the file is given, and the generator stays
the current one. -/
theorem randomChoice_replaying {g : SimpleDeltaRndNumGenerator} (rejects : ℕ → Bool)
    {t : List ValuePair} (hseq : g.sequence.drop g.currentPos = p :: t)
    (hrej : rejects p.value = false) :
    ∃ g', g.randomChoice p.bound rejects = some (p.value, g') ∧
      g'.noDeltaReduction = g.noDeltaReduction ∧ g'.sequence.drop g'.currentPos = t := by
  have hp : g.sequence[g.currentPos]? = some p := by
    rw [← List.head?_drop, hseq]
    rfl
  have htail : g.sequence.drop (g.currentPos + 1) = t := by
    rw [← List.tail_drop, hseq]
    rfl
  have hrc : g.randomChoice p.bound rejects = some (p.value, { g with
      seqMap := g.seqMap.addNumber g.currentPos p
      currentPos := g.currentPos + 1
      randDepth := g.randDepth + 1 }) := by
    unfold SimpleDeltaRndNumGenerator.randomChoice
    rw [hp]
    dsimp only
    rw [if_pos ⟨rfl, hrej⟩]
  exact ⟨_, hrc, rfl, htail⟩

theorem switch_replaying {g : SimpleDeltaRndNumGenerator} (tape : Tape)
    (hno : g.noDeltaReduction = true) : g.switchToDefaultGenerator tape = .simpleDelta g tape :=
  if_pos (.inl hno)

theorem randomDigits_replaying {d : Digits} {g : SimpleDeltaRndNumGenerator} {str : List Char}
    {t : List ValuePair} (tape : Tape) (hno : g.noDeltaReduction = true)
    (hl : List.Forall₂ d.Spells l str) (hseq : g.sequence.drop g.currentPos = l ++ t) :
    ∃ g', g.randomDigits d tape l.length (.simpleDelta g tape) =
        some (str, .simpleDelta g' tape) ∧
      g'.noDeltaReduction = true ∧ g'.sequence.drop g'.currentPos = t := by
  induction hl generalizing g with
  | nil => exact ⟨g, rfl, hno, hseq⟩
  | @cons p ch l str hp _ ih =>
    obtain ⟨g₁, hrc, hno₁, hseq₁⟩ :=
      randomChoice_replaying (fun _ => false) hseq rfl
    rw [hno] at hno₁
    obtain ⟨g', hrest, hno', hseq'⟩ := ih hno₁ hseq₁
    rw [hp.1] at hrc
    refine ⟨g', ?_, hno', hseq'⟩
    rw [List.length_cons, SimpleDeltaRndNumGenerator.randomDigits, hrc]
    simp only [Option.bind_eq_bind, Option.bind_some, hp.2, switch_replaying tape hno₁, hrest]

/-- A generator with `--no-delta-reduction` keeps to the file, and reads on in it. -/
theorem run_replaying (g : SimpleDeltaRndNumGenerator) (tape : Tape)
    (hno : g.noDeltaReduction = true) (hl : P.Runs l a)
    (hseq : l <+: g.sequence.drop g.currentPos) :
    ∃ g', (RandomNumber.simpleDelta g tape).run P = some (a, .simpleDelta g' tape) := by
  induction P generalizing g l with
  | done b =>
    obtain ⟨-, rfl⟩ := hl
    exact ⟨g, rfl⟩
  | choose c next ih =>
    cases l with
    | nil => exact hl.elim
    | cons p l =>
      obtain ⟨⟨hbound, hrej, hlt⟩, hrest⟩ := hl
      obtain ⟨t, ht⟩ := hseq
      obtain ⟨g', hrc, hno', hseq'⟩ := randomChoice_replaying _ ht.symm hrej
      rw [hno] at hno'
      have hchoose : (RandomNumber.simpleDelta g tape).choose c =
          some (p.value, .simpleDelta g' tape) := by
        rw [hbound] at hrc
        simp only [RandomNumber.choose, SimpleDeltaRndNumGenerator.choose, hrc,
          Option.bind_eq_bind, Option.bind_some, hlt, if_true, switch_replaying tape hno']
      rw [RandomNumber.run, hchoose]
      exact ih p.value g' hno' hrest ⟨t, hseq'.symm⟩
  | digits d num next ih =>
    obtain ⟨l₁, l₂, str, rfl, rfl, hspells, hrest⟩ := hl
    obtain ⟨t, ht⟩ := hseq
    rw [List.append_assoc] at ht
    obtain ⟨g', hdigits, hno', hseq'⟩ := randomDigits_replaying tape hno hspells ht.symm
    rw [RandomNumber.run, RandomNumber.randomDigits, hdigits]
    exact ih str g' hno' hrest ⟨t, hseq'.symm⟩

theorem createDelta_eq {text : List Char} {no : Bool} {tape : Tape}
    (h : RandomNumber.createDelta text no x tape = some r) :
    ∃ s, initSequence text = some s ∧ s ≠ [] ∧
      r = .simpleDelta ⟨s, x % s.length, no, 0, 0, []⟩ tape := by
  unfold RandomNumber.createDelta at h
  obtain ⟨s, hs, h⟩ := Option.bind_eq_some_iff.mp h
  split at h
  · cases h
  · next hne => exact ⟨s, hs, hne, (Option.some.inj h).symm⟩

/-- At the start nothing is given. -/
theorem Given.start (s : List ValuePair) (no : Bool) (tape : Tape) :
    Given s (max 1 n) no (.simpleDelta ⟨s, n, no, 0, 0, []⟩ tape) [] :=
  ⟨⟨rfl, rfl, rfl, rfl, List.nil_prefix, rfl, rfl⟩,
    fun _ => lt_of_lt_of_le Nat.one_pos (le_max_left _ _)⟩

/-- **What is replayed**: a run whose numbers the file begins with. -/
theorem replay_iff {text file : List Char} {tape : Tape} :
    replay P text true x tape = some (a, file) ↔
      ∃ s l, initSequence text = some s ∧ l <+: s ∧ l ≠ [] ∧ P.Runs l a ∧ file = textOf l := by
  constructor
  · intro h
    obtain ⟨r, hr, hout⟩ := Option.bind_eq_some_iff.mp h
    obtain ⟨s, hs, -, rfl⟩ := createDelta_eq hr
    obtain ⟨l, hne, hl, hfile, -, r', hrun, hg⟩ := (Given.start s true tape).output hout
    exact ⟨s, l, hs, hg.read, hne, hl, hfile⟩
  · rintro ⟨s, l, hs, hpre, hne, hl, rfl⟩
    have hsne : s ≠ [] := by
      rintro rfl
      exact hne (List.prefix_nil.mp hpre)
    have hstart := Given.start (n := x % s.length) s true tape
    obtain ⟨g', hrun⟩ := run_replaying (P := P) (l := l) (a := a)
      ⟨s, x % s.length, true, 0, 0, []⟩ tape rfl hl hpre
    obtain ⟨l', hl', hg, -⟩ := hstart.run hrun
    rw [List.nil_append] at hg
    -- both are the run the file begins with
    have hsame : l' = l := by
      rcases List.prefix_or_prefix_of_prefix hpre hg.read with hp | hp
      · exact (hl'.unique hl hp).1.symm
      · exact (hl.unique hl' hp).1
    unfold replay RandomNumber.createDelta RandomNumber.output
    simp only [hs, Option.bind_eq_bind, Option.bind_some, if_neg hsne, hrun, hg.seqMap, hsame,
      getSequence_indexed hne, Option.map_some]

/-! ## Recording -/

/-- A tape for a string of digits. -/
theorem exists_drawDigits {d : Digits} {str : List Char} (ps : List ValuePair) (tape : Tape)
    (hl : List.Forall₂ d.Spells l str) (hbelow : ∀ p ∈ l, p.value < d.bound) :
    ∃ tape', DefaultRndNumGenerator.randomDigits d l.length
        ⟨tape', ps.length, indexed 0 ps⟩ =
      some (str, ⟨tape, (ps ++ l).length, indexed 0 (ps ++ l)⟩) := by
  induction hl generalizing ps with
  | nil => exact ⟨tape, by rw [List.append_nil]; rfl⟩
  | @cons p ch l str hp _ ih =>
    have hlt := hbelow p List.mem_cons_self
    have hadd : (indexed 0 ps).addNumber ps.length ⟨p.value, d.bound⟩ = indexed 0 (ps ++ [p]) := by
      rw [← hp.1]
      simpa using addNumber_indexed (k := 0) (l := ps) (p := p)
    obtain ⟨tape', hrest⟩ := ih (ps ++ [p]) fun q hq => hbelow q (List.mem_cons_of_mem _ hq)
    rw [List.length_append, List.length_singleton, List.append_assoc, List.singleton_append]
      at hrest
    refine ⟨p.value :: tape', ?_⟩
    rw [List.length_cons, DefaultRndNumGenerator.randomDigits]
    simp only [rndUpto, Nat.mod_eq_of_lt hlt, Bool.false_eq_true, if_false, Option.bind_eq_bind,
      Option.bind_some, hp.2, DefaultRndNumGenerator.add, hadd, hrest]

/-- A tape for a run whose coins are possible. -/
theorem exists_run (ps : List ValuePair) (hl : P.Runs l a) (hp : P.Possible l) :
    ∃ tape g', (RandomNumber.default ⟨tape, ps.length, indexed 0 ps⟩).run P =
      some (a, .default g') ∧ g'.seqMap = indexed 0 (ps ++ l) := by
  induction P generalizing ps l with
  | done b =>
    obtain ⟨rfl, rfl⟩ := hl
    exact ⟨[], _, rfl, by rw [List.append_nil]⟩
  | choose c next ih =>
    cases l with
    | nil => exact hl.elim
    | cons p l =>
      obtain ⟨y, hy⟩ := Choice.exists_draw hl.1 hp.1
      have hadd : (indexed 0 ps).addNumber ps.length ⟨p.value, c.bound⟩ =
          indexed 0 (ps ++ [p]) := by
        rw [← hl.1.1]
        simpa using addNumber_indexed (k := 0) (l := ps) (p := p)
      obtain ⟨tape, g', hrun, hmap⟩ := ih p.value (ps ++ [p]) hl.2 hp.2
      rw [List.length_append, List.length_singleton] at hrun
      refine ⟨y :: tape, g', ?_, by rw [hmap, List.append_assoc, List.singleton_append]⟩
      rw [RandomNumber.run, RandomNumber.choose, DefaultRndNumGenerator.choose, hy]
      simp only [Option.map_some, DefaultRndNumGenerator.add, hadd]
      exact hrun
  | digits d num next ih =>
    obtain ⟨l₁, l₂, str, rfl, rfl, hspells, hrest⟩ := hl
    obtain ⟨hbelow, hnext⟩ := hp
    rw [List.take_left] at hbelow hnext
    rw [List.drop_left] at hnext
    obtain ⟨tape, g', hrun, hmap⟩ := ih str (ps ++ l₁) hrest (hnext str hspells)
    obtain ⟨tape', hdraw⟩ := exists_drawDigits ps tape hspells hbelow
    refine ⟨tape', g', ?_, by rw [hmap, List.append_assoc]⟩
    rw [RandomNumber.run, RandomNumber.randomDigits, hdraw]
    exact hrun

/-- **What is recorded**: any run, as long as its coins are possible. -/
theorem record_iff {file : List Char} :
    (∃ tape, record P tape = some (a, file)) ↔
      ∃ l, l ≠ [] ∧ P.Runs l a ∧ P.Possible l ∧ file = textOf l := by
  constructor
  · rintro ⟨tape, h⟩
    have hstart : Given [] 0 false (.default ⟨tape, 0, []⟩) [] := ⟨rfl, rfl, List.nil_prefix, rfl⟩
    obtain ⟨l, hne, hl, hfile, hposs, -⟩ := hstart.output h
    exact ⟨l, hne, hl, hposs trivial, hfile⟩
  · rintro ⟨l, hne, hl, hp, rfl⟩
    obtain ⟨tape, g', hrun, hmap⟩ := exists_run [] hl hp
    refine ⟨tape, ?_⟩
    unfold record RandomNumber.output
    rw [List.nil_append] at hmap
    rw [List.length_nil, indexed] at hrun
    rw [hrun, Option.bind_some, RandomNumber.seqMap, hmap, getSequence_indexed hne,
      Option.map_some]

/-! ## Runs on the files of others -/

/-- A run that is over: its program, and the file it has written, from which the next
one may start. -/
structure Run (α : Type) where
  program : α
  file : List Char

/-- **Delta reduction**: the first run records, and each takes the file of the
one before, to reduce it or not. -/
def system (P : Program α) : Common.System (Run α) where
  Init σ := ∃ tape, record P tape = some (σ.program, σ.file)
  Step σ σ' := ∃ no x tape, replay P σ.file no x tape = some (σ'.program, σ'.file)

/-- What every run leaves: the numbers of its program. -/
theorem runs_of_reachable {σ : Run α} (h : (system P).Reachable σ) :
    ∃ l, l ≠ [] ∧ P.Runs l σ.program ∧ σ.file = textOf l := by
  refine h.invariant (I := fun σ => ∃ l, l ≠ [] ∧ P.Runs l σ.program ∧ σ.file = textOf l) ?_ ?_
  · intro σ hinit
    obtain ⟨l, hne, hl, -, hfile⟩ := record_iff.mp hinit
    exact ⟨l, hne, hl, hfile⟩
  · rintro σ σ' - - ⟨no, x, tape, hstep⟩
    obtain ⟨r, hr, hout⟩ := Option.bind_eq_some_iff.mp hstep
    obtain ⟨s, -, -, rfl⟩ := createDelta_eq hr
    obtain ⟨l, hne, hl, hfile, -⟩ := (Given.start s no tape).output hout
    exact ⟨l, hne, hl, hfile⟩

/-- **Every file makes its program again**, and is written again as it is; one that
is reduced keeps its first numbers, up to the random point. -/
theorem replay_reachable (hP : P.Bounded) {σ : Run α} (h : (system P).Reachable σ) :
    (∀ x tape, replay P σ.file true x tape = some (σ.program, σ.file)) ∧
    ∀ x tape b file, replay P σ.file false x tape = some (b, file) →
      ∃ l l', initSequence σ.file = some l ∧ initSequence file = some l' ∧
        max 1 (x % l.length) ≤ l'.length ∧
        l'.take (max 1 (x % l.length)) = l.take (max 1 (x % l.length)) := by
  obtain ⟨l, hne, hl, hfile⟩ := runs_of_reachable h
  have hread : initSequence σ.file = some l := by
    rw [hfile]
    exact initSequence_textOf (hl.ints hP)
  refine ⟨fun x tape => ?_, fun x tape b file hstep => ?_⟩
  · exact replay_iff.mpr ⟨l, l, hread, List.prefix_rfl, hne, hl, hfile⟩
  · obtain ⟨r, hr, hout⟩ := Option.bind_eq_some_iff.mp hstep
    obtain ⟨s, hs, -, rfl⟩ := createDelta_eq hr
    obtain rfl := Option.some.inj (hread.symm.trans hs)
    obtain ⟨l', -, hl', hfile', -, r', -, hg⟩ := (Given.start l false tape).output hout
    have hpos : 0 < l.length := List.length_pos_of_ne_nil hne
    have hpoint : max 1 (x % l.length) ≤ l.length :=
      max_le hpos (Nat.le_of_lt (Nat.mod_lt _ hpos))
    have hkept : l.take (max 1 (x % l.length)) <+: l' := by
      cases r' with
      | default g => exact hg.2.2.1
      | simpleDelta g tape' =>
        -- the file was read to the end, and so the random point was passed
        obtain ⟨rfl, -⟩ := hl.unique hl' hg.1.read
        exact List.take_prefix _ _
    refine ⟨l, l', hread, ?_, ?_, ?_⟩
    · rw [hfile']
      exact initSequence_textOf (hl'.ints hP)
    · have := hkept.length_le
      rw [List.length_take] at this
      omega
    · have := List.prefix_iff_eq_take.mp hkept
      rw [List.length_take, Nat.min_eq_left hpoint] at this
      exact this.symm

/-- A number below three that is not zero, two hexadecimal digits, and a coin. -/
def numberDigitsCoin (p : ℕ) : Program (ℕ × List Char × ℕ) :=
  .choose (.upto 3 (some (· == 0))) fun v => .digits .hex 2 fun str =>
    .choose (.flipcoin p) fun w => .done (v, str, w)

theorem replay_reachable_digits : ∃ σ : Run (ℕ × List Char × ℕ),
    σ.program = (2, ['1', 'F'], 1) ∧
    (∀ x tape, replay (numberDigitsCoin 50) σ.file true x tape = some (σ.program, σ.file)) ∧
    ∀ x tape b file, replay (numberDigitsCoin 50) σ.file false x tape = some (b, file) →
      ∃ l l', initSequence σ.file = some l ∧ initSequence file = some l' ∧
        max 1 (x % l.length) ≤ l'.length ∧
        l'.take (max 1 (x % l.length)) = l.take (max 1 (x % l.length)) := by
  have hrecord : record (numberDigitsCoin 50) [3, 5, 17, 31, 250] =
      some ((2, ['1', 'F'], 0), textOf [⟨2, 3⟩, ⟨1, 16⟩, ⟨15, 16⟩, ⟨0, 2⟩]) := rfl
  -- the random point is in the middle of the digits, and only the coin is thrown again
  have hreduce : replay (numberDigitsCoin 50)
      (textOf [⟨2, 3⟩, ⟨1, 16⟩, ⟨15, 16⟩, ⟨0, 2⟩]) false 6 [149] =
        some ((2, ['1', 'F'], 1), textOf [⟨2, 3⟩, ⟨1, 16⟩, ⟨15, 16⟩, ⟨1, 2⟩]) := by
    unfold replay RandomNumber.createDelta
    rw [initSequence_textOf (by simp [Ints])]
    rfl
  have hinit : (system (numberDigitsCoin 50)).Reachable
      ⟨(2, ['1', 'F'], 0), textOf [⟨2, 3⟩, ⟨1, 16⟩, ⟨15, 16⟩, ⟨0, 2⟩]⟩ := .init ⟨_, hrecord⟩
  refine ⟨⟨_, textOf [⟨2, 3⟩, ⟨1, 16⟩, ⟨15, 16⟩, ⟨1, 2⟩]⟩, rfl, replay_reachable ?_ ?_⟩
  · simp [numberDigitsCoin, Program.Bounded, Choice.bound]
  · exact hinit.step ⟨false, 6, [149], hreduce⟩

end Delta

end CLSmith
