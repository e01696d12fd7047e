import CLSmith.Probabilities
/-!
# A dumped configuration restores itself

The text of each element is read back by the parser as the element it was
written from, with the values it was written with; what else the parser
checks holds of admissible values. So the whole file sets every probability
to the dumped value, whatever the values were before.
-/

namespace CLSmith

open Common CString StringUtils

namespace Probabilities

variable {σ A B : Probabilities} {p q : ProbName} {s x : List Char} {e : ProbElem}
variable {ps : List ProbName} {isEqual : Bool}

/-! ## Names -/

/-- The characters of names and numbers. -/
def plain (c : Char) : Bool := c.isAlphanum || c == '_'

/-- Every name is found by its text, and is made of plain characters. -/
theorem names_ok : (names.all fun x => decide (getPname x.2 = some x.1) && x.2.all plain &&
    !x.2.isEmpty) = true := by
  decide +kernel

theorem of_getSname (h : getSname p = some s) :
    getPname s = some p ∧ (∀ c ∈ s, plain c = true) ∧ s ≠ [] := by
  obtain ⟨x, hx, rfl⟩ := Option.map_eq_some_iff.mp h
  have hkey : x.1 = p := by simpa using List.find?_some hx
  have hmem := List.all_eq_true.mp names_ok x (List.mem_of_find?_eq_some hx)
  simp only [Bool.and_eq_true, decide_eq_true_eq, Bool.not_eq_true', List.all_eq_true] at hmem
  obtain ⟨⟨hp, hplain⟩, hne⟩ := hmem
  refine ⟨by rw [hp, hkey], hplain, fun hnil => ?_⟩
  rw [hnil] at hne
  cases hne

/-- The names of an element are known, and it is found by its own. -/
structure Known (e : ProbElem) : Prop where
  elem : elem e.key = some e
  ne_nil : e.members ≠ []
  key : (getSname e.key).isSome = true
  members : ∀ p ∈ e.members, (getSname p).isSome = true

theorem layout_known : ∀ e ∈ layout, Known e := by
  have h : ∀ e ∈ layout, Probabilities.elem e.key = some e ∧ e.members ≠ [] ∧
      (getSname e.key).isSome = true ∧ ∀ p ∈ e.members, (getSname p).isSome = true := by
    decide +kernel
  intro e he
  obtain ⟨h1, h2, h3, h4⟩ := h e he
  exact ⟨h1, h2, h3, h4⟩

/-! ## Plain text -/

theorem ne_of_plain {c d : Char} (hc : plain c = true) (hd : plain d = false) : c ≠ d := by
  rintro rfl
  rw [hc] at hd
  cases hd

theorem isSpace_of_plain {c : Char} (hc : plain c = true) : StringUtils.isSpace c = false := by
  have h1 := ne_of_plain hc (d := ' ') rfl
  have h2 := ne_of_plain hc (d := '\t') rfl
  have h3 := ne_of_plain hc (d := '\n') rfl
  simp [StringUtils.isSpace, h1, h2, h3]

theorem word_of_plain {sep : Char} (hsep : plain sep = false) (hs : ∀ c ∈ s, plain c = true)
    (hne : s ≠ []) : Word sep s where
  ne_nil := hne
  no_sep := fun h => ne_of_plain (hs sep h) hsep rfl
  no_space := fun c hc => isSpace_of_plain (hs c (List.mem_of_mem_head? hc))

theorem plain_decimal (n : ℕ) : ∀ c ∈ decimal n, plain c = true := by
  intro c hc
  have hdigit := isDigit_of_mem_decimal n c hc
  simp [plain, Char.isAlphanum, hdigit]

/-- A value that is not negative is printed as its digits. -/
theorem printInt_of_nonneg {v : ℤ} (hv : 0 ≤ v) : printInt v = decimal v.toNat := by
  obtain ⟨n, rfl⟩ := Int.eq_ofNat_of_zero_le hv
  rfl

/-! ## A single probability -/

/-- What `dump_val` writes of one name. -/
def text (A : Probabilities) (p : ProbName) : List Char :=
  (getSname p).getD [] ++ '=' :: printInt (A.val p)

theorem dumpSingle_eq (hp : (getSname p).isSome = true) : A.dumpSingle p = some (A.text p) := by
  obtain ⟨s, hs⟩ := Option.isSome_iff_exists.mp hp
  simp [dumpSingle, text, hs]

/-- The values the setters leave in a name, in an equal group or elsewhere. -/
structure InRange (A : Probabilities) (p : ProbName) : Prop where
  nonneg : 0 ≤ A.val p
  le : A.val p ≤ 100
  void : p = .pVoidProb → A.val p = 0

/-- The text of a name is its name and the digits of its value. -/
theorem text_eq (hp : (getSname p).isSome = true) (hA : InRange A p) :
    ∃ s, getPname s = some p ∧ A.text p = joinWith '=' [s, decimal (A.val p).toNat] ∧
      (∀ c ∈ s, plain c = true) ∧ s ≠ [] := by
  obtain ⟨s, hs⟩ := Option.isSome_iff_exists.mp hp
  obtain ⟨hkey, hplain, hne⟩ := of_getSname hs
  refine ⟨s, hkey, ?_, hplain, hne⟩
  unfold text
  rw [hs, printInt_of_nonneg hA.nonneg]
  rfl

/-- The characters of such a text. -/
theorem mem_text (hp : (getSname p).isSome = true) (hA : InRange A p) :
    ∀ c ∈ A.text p, plain c = true ∨ c = '=' := by
  obtain ⟨s, -, htext, hplain, -⟩ := text_eq hp hA
  intro c hc
  rw [htext] at hc
  simp only [joinWith, List.mem_append, List.mem_cons] at hc
  rcases hc with hc | rfl | hc
  · exact .inl (hplain c hc)
  · exact .inr rfl
  · exact .inl (plain_decimal _ c hc)

theorem text_head (hp : (getSname p).isSome = true) (hA : InRange A p) :
    ∃ c t, A.text p = c :: t ∧ plain c = true := by
  obtain ⟨s, -, htext, hplain, hne⟩ := text_eq hp hA
  cases s with
  | nil => exact absurd rfl hne
  | cons c s => exact ⟨c, _, htext, hplain c List.mem_cons_self⟩

/-- The two parts of the text are found again. -/
theorem split_text (hp : (getSname p).isSome = true) (hA : InRange A p) :
    ∃ s, getPname s = some p ∧
      splitString (A.text p) '=' = some [s, decimal (A.val p).toNat] := by
  obtain ⟨s, hkey, htext, hplain, hne⟩ := text_eq hp hA
  refine ⟨s, hkey, ?_⟩
  rw [htext]
  refine splitString_join (fun w hw => ?_) (List.cons_ne_nil _ _)
  rcases List.mem_cons.mp hw with rfl | hw
  · exact word_of_plain rfl hplain hne
  · rw [List.mem_singleton.mp hw]
    exact word_of_plain rfl (plain_decimal _) (decimal_ne_nil _)

theorem str2int_val (hA : InRange A p) : str2int (decimal (A.val p).toNat) = some (A.val p) := by
  rw [str2int_decimal, Int.toNat_of_nonneg hA.nonneg]

/-! ## Values taken over -/

/-- The values of `A` at these names, and those of `σ` elsewhere. -/
def assign (σ A : Probabilities) (ps : List ProbName) : Probabilities :=
  ⟨fun p => if p ∈ ps then A.val p else σ.val p⟩

theorem assign_nil : σ.assign A [] = σ := by
  simp [assign]

theorem assign_assign {qs : List ProbName} :
    (σ.assign A ps).assign A qs = σ.assign A (ps ++ qs) := by
  unfold assign
  congr 1
  funext p
  by_cases hq : p ∈ qs <;> by_cases hp : p ∈ ps <;> simp [hp, hq]

theorem setSingle_eq (hA : InRange A p) :
    σ.setSingle p (A.val p) = some (σ.assign A [p]) := by
  have h0 := hA.nonneg
  have h1 := hA.le
  unfold setSingle
  rw [if_pos ⟨h1, by omega, hA.void⟩, if_pos h0]
  congr 2
  funext q
  by_cases hq : q = p <;> simp [hq]

theorem setProb_eq (hp : p ∈ e.members) (hA : InRange A p) :
    σ.setProb e p (A.val p) = some (σ.assign A [p]) := by
  unfold setProb
  rw [if_pos hp, setSingle_eq hA]

/-- **A member of a group is read back.** -/
theorem parseSingleElem_text (hp : p ∈ e.members) (hs : (getSname p).isSome = true)
    (hA : InRange A p) (heq : isEqual = true → A.val p = 0 ∨ A.val p = 1) :
    σ.parseSingleElem isEqual e (A.text p) = some (σ.assign A [p], A.val p) := by
  obtain ⟨s, hkey, hsplit⟩ := split_text hs hA
  have hcheck : if isEqual then A.val p = 0 ∨ A.val p = 1 else 0 ≤ A.val p ∧ A.val p ≤ 100 := by
    cases isEqual with
    | true => exact heq rfl
    | false => exact ⟨hA.nonneg, hA.le⟩
  unfold parseSingleElem
  simp only [hsplit, str2int_val hA, hkey, setProb_eq hp hA, Option.bind_eq_bind,
    Option.bind_some]
  exact if_pos hcheck

/-! ## A group -/

/-- The members of an equal group are read back one after the other; they are
not all zero when one of them is not. -/
theorem setupLoop_equal {vals : List ℤ} {allZero valid : Bool}
    (hp : ∀ p ∈ ps, p ∈ e.members ∧ (getSname p).isSome = true ∧ InRange A p)
    (heq : ∀ p ∈ ps, A.val p = 0 ∨ A.val p = 1) :
    setupLoop true e (ps.map A.text) vals allZero valid σ =
      some (σ.assign A ps, allZero && ps.all fun p => A.val p != 1, valid || !ps.isEmpty) := by
  induction ps generalizing σ allZero valid with
  | nil => simp [setupLoop, assign_nil]
  | cons p ps ih =>
    obtain ⟨hmem, hs, hA⟩ := hp p List.mem_cons_self
    have hval := heq p List.mem_cons_self
    have hrest := @ih (σ.assign A [p]) (allZero && A.val p != 1) true
      (fun q hq => hp q (List.mem_cons_of_mem _ hq))
      (fun q hq => heq q (List.mem_cons_of_mem _ hq))
    rw [assign_assign, List.singleton_append] at hrest
    rw [List.map_cons, setupLoop, parseSingleElem_text hmem hs hA fun _ => hval]
    simp only [Option.bind_eq_bind, Option.bind_some, if_true]
    rw [if_pos hval, hrest]
    simp [Bool.and_assoc]

/-- The members of another group are read back where no positive value comes
twice; the maximum is found when one of them is a hundred. -/
theorem setupLoop_group {vals : List ℤ} {allZero valid : Bool}
    (hp : ∀ p ∈ ps, p ∈ e.members ∧ (getSname p).isSome = true ∧ InRange A p)
    (hvals : ∀ p ∈ ps, 0 < A.val p → A.val p ∉ vals)
    (hdiff : ps.Pairwise fun p q => 0 < A.val p → A.val p ≠ A.val q) :
    setupLoop false e (ps.map A.text) vals allZero valid σ =
      some (σ.assign A ps, allZero && ps.isEmpty, valid || ps.any fun p => A.val p == 100) := by
  induction ps generalizing σ vals allZero valid with
  | nil => simp [setupLoop, assign_nil]
  | cons p ps ih =>
    obtain ⟨hmem, hs, hA⟩ := hp p List.mem_cons_self
    obtain ⟨hp1, hdiff⟩ := List.pairwise_cons.mp hdiff
    have hnew : ∀ q ∈ ps, 0 < A.val q → A.val q ∉ A.val p :: vals := by
      intro q hq hpos hin
      rcases List.mem_cons.mp hin with hpq | hin
      · exact hp1 q hq (by omega) hpq.symm
      · exact hvals q (List.mem_cons_of_mem _ hq) hpos hin
    have hrest := @ih (σ.assign A [p]) (A.val p :: vals) false (valid || A.val p == 100)
      (fun q hq => hp q (List.mem_cons_of_mem _ hq)) hnew hdiff
    rw [assign_assign, List.singleton_append] at hrest
    have hcheck : ¬ (¬ (0 ≤ A.val p ∧ A.val p ≤ 100) ∨ (0 < A.val p ∧ A.val p ∈ vals)) := by
      rintro (hout | ⟨hpos, hin⟩)
      · exact hout ⟨hA.nonneg, hA.le⟩
      · exact hvals p List.mem_cons_self hpos hin
    rw [List.map_cons, setupLoop, parseSingleElem_text hmem hs hA fun h => absurd h (by decide)]
    simp only [Option.bind_eq_bind, Option.bind_some, Bool.false_eq_true, if_false]
    rw [if_neg hcheck, hrest]
    simp [Bool.or_assoc]

/-- What the parser checks of a group and of a single probability holds of the
values of `A`. -/
structure Restorable (A : Probabilities) (e : ProbElem) : Prop where
  inRange : ∀ p ∈ e.members, InRange A p
  group : ∀ isEqual pname probs, e = .group isEqual pname probs → A.GroupOk isEqual probs
  nodup : e.members.Nodup

/-- **A group with admissible values is set up.** -/
theorem setupGroupProbabilities_text {pname : ProbName} (hk : Known (.group isEqual pname ps))
    (hA : Restorable A (.group isEqual pname ps)) (hs : getSname pname = some s) :
    σ.setupGroupProbabilities isEqual (s :: ps.map A.text) = some (σ.assign A ps) := by
  have hp : ∀ p ∈ ps, p ∈ (ProbElem.group isEqual pname ps).members ∧
      (getSname p).isSome = true ∧ InRange A p :=
    fun p hp => ⟨hp, hk.members p hp, hA.inRange p hp⟩
  have hok := hA.group _ _ _ rfl
  obtain ⟨hkey, -, -⟩ := of_getSname hs
  have hne : ps ≠ [] := hk.ne_nil
  have helem : elem pname = some (.group isEqual pname ps) := hk.elem
  -- the flags the loop ends with
  have hloop : ∃ allZero valid, setupLoop isEqual (.group isEqual pname ps) (ps.map A.text) []
      true false σ = some (σ.assign A ps, allZero, valid) ∧ allZero = false ∧ valid = true := by
    cases isEqual with
    | true =>
      obtain ⟨hall, q, hq, hone⟩ : (∀ p ∈ ps, A.val p = 0 ∨ A.val p = 1) ∧
        ∃ p ∈ ps, A.val p = 1 := hok
      refine ⟨_, _, setupLoop_equal hp hall, ?_, by simp [hne]⟩
      rw [Bool.true_and, List.all_eq_false]
      exact ⟨q, hq, by simp [hone]⟩
    | false =>
      obtain ⟨-, ⟨q, hq, hmax⟩, hdiff⟩ : (∀ p ∈ ps, 0 ≤ A.val p ∧ A.val p ≤ 100) ∧
        (∃ p ∈ ps, A.val p = 100) ∧
        ∀ p ∈ ps, ∀ q ∈ ps, 0 < A.val p → A.val p = A.val q → p = q := hok
      have hpair : ps.Pairwise fun p q => 0 < A.val p → A.val p ≠ A.val q := by
        have hnodup : ps.Pairwise fun p q => p ≠ q := hA.nodup
        refine hnodup.imp_of_mem fun hp hq hpq hpos heq => hpq (hdiff _ hp _ hq hpos heq)
      refine ⟨_, _, setupLoop_group hp (by simp) hpair, by simp [hne], ?_⟩
      rw [Bool.false_or, List.any_eq_true]
      exact ⟨q, hq, by simp [hmax]⟩
  obtain ⟨allZero, valid, hloop, rfl, rfl⟩ := hloop
  obtain ⟨p, ps, rfl⟩ := List.exists_cons_of_ne_nil hne
  rw [List.map_cons] at hloop ⊢
  unfold setupGroupProbabilities
  simp only [hkey, helem, hloop, Option.bind_eq_bind, Option.bind_some]
  rfl

theorem dumpMembers_eq (hne : ps ≠ []) (hp : ∀ p ∈ ps, (getSname p).isSome = true) :
    A.dumpMembers ps = some (joinWith ',' (ps.map A.text)) := by
  induction ps with
  | nil => exact absurd rfl hne
  | cons p ps ih =>
    have hone := dumpSingle_eq (A := A) (hp p List.mem_cons_self)
    cases ps with
    | nil => exact hone
    | cons q ps =>
      have hrest := ih (List.cons_ne_nil _ _) fun r hr => hp r (List.mem_cons_of_mem _ hr)
      rw [dumpMembers, hone, hrest]
      · rfl
      · simp

theorem mem_joinWith {sep c : Char} {ws : List (List Char)} (h : c ∈ joinWith sep ws) :
    c = sep ∨ ∃ w ∈ ws, c ∈ w := by
  induction ws with
  | nil => cases h
  | cons w ws ih =>
    cases ws with
    | nil => exact .inr ⟨w, List.mem_cons_self, h⟩
    | cons w' ws =>
      rw [joinWith, List.mem_append, List.mem_cons] at h
      · rcases h with h | rfl | h
        · exact .inr ⟨w, List.mem_cons_self, h⟩
        · exact .inl rfl
        · exact (ih h).imp_right fun ⟨x, hx, hc⟩ => ⟨x, List.mem_cons_of_mem _ hx, hc⟩
      · simp

/-! ## A line -/

/-- A character of a line, the delimiters of a group apart. -/
def inner (c : Char) : Bool := plain c || c == '=' || c == ','

theorem inner_of_text (hp : (getSname p).isSome = true) (hA : InRange A p) :
    ∀ c ∈ A.text p, inner c = true := by
  intro c hc
  rcases mem_text hp hA c hc with h | rfl
  · simp [inner, h]
  · rfl

/-- What stands between the delimiters of a group. -/
theorem inner_of_group {pname : ProbName} (hk : Known (.group isEqual pname ps))
    (hA : ∀ p ∈ ps, InRange A p) (hs : getSname pname = some s) :
    ∀ c ∈ joinWith ',' (s :: ps.map A.text), inner c = true := by
  intro c hc
  rcases mem_joinWith hc with rfl | ⟨w, hw, hcw⟩
  · rfl
  · rcases List.mem_cons.mp hw with rfl | hw
    · simp [inner, (of_getSname hs).2.1 c hcw]
    · obtain ⟨p, hp, rfl⟩ := List.mem_map.mp hw
      exact inner_of_text (hk.members p hp) (hA p hp) c hcw

theorem ne_of_inner {c d : Char} (hc : inner c = true) (hd : inner d = false) : c ≠ d := by
  rintro rfl
  rw [hc] at hd
  cases hd

theorem firstNonspaceChar_cons {c : Char} {t : List Char}
    (hc : StringUtils.isSpace c = false) : firstNonspaceChar (c :: t) = c := by
  unfold firstNonspaceChar ignoreSpaces
  rw [List.drop_zero, List.takeWhile_cons_of_neg (by simp [hc])]
  rfl

/-- **A single probability is read back.** -/
theorem parseLine_single (hk : Known (.single p)) (hA : InRange A p) :
    σ.parseLine (A.text p) = some (σ.assign A [p], none) := by
  have hs : (getSname p).isSome = true := hk.key
  have h0 := hA.nonneg
  have h1 := hA.le
  obtain ⟨c, t, htext, hplain⟩ := text_head hs hA
  have hfirst : firstNonspaceChar (A.text p) = c := by
    rw [htext]
    exact firstNonspaceChar_cons (isSpace_of_plain hplain)
  obtain ⟨s, hkey, hsplit⟩ := split_text hs hA
  have helem : elem p = some (.single p) := hk.elem
  have hset : σ.setProb (.single p) p (A.val p) = some (σ.assign A [p]) :=
    setProb_eq (by simp [ProbElem.members]) hA
  unfold parseLine
  simp only [hfirst]
  rw [if_neg (ne_of_plain hplain rfl), if_neg (ne_of_plain hplain rfl),
    if_neg (ne_of_plain hplain rfl), if_neg (ne_of_plain hplain rfl)]
  unfold parseSingleProbability
  simp only [hsplit, str2int_val hA, hkey, helem, hset, Option.bind_eq_bind, Option.bind_some]
  exact if_pos ⟨h1, by omega⟩

/-- **A group is read back.** -/
theorem parseLine_group {pname : ProbName} (hk : Known (.group isEqual pname ps))
    (hA : Restorable A (.group isEqual pname ps)) (hs : getSname pname = some s) :
    σ.parseLine (openDelim isEqual ::
      (joinWith ',' (s :: ps.map A.text) ++ [closeDelim isEqual])) =
      some (σ.assign A ps, none) := by
  obtain ⟨-, hplain, hne⟩ := of_getSname hs
  have hopen : StringUtils.isSpace (openDelim isEqual) = false := by
    cases isEqual <;> rfl
  -- nothing printed for a member is the delimiter, so that the first one found is the last
  have hclose : inner (closeDelim isEqual) = false := by
    cases isEqual <;> rfl
  have hinner := inner_of_group hk hA.inRange hs
  have hwords : ∀ w ∈ s :: ps.map A.text, Word ',' w := by
    intro w hw
    rcases List.mem_cons.mp hw with rfl | hw
    · exact word_of_plain rfl hplain hne
    · obtain ⟨p, hp, rfl⟩ := List.mem_map.mp hw
      have hp' := hk.members p hp
      obtain ⟨c, t, htext, hc⟩ := text_head hp' (hA.inRange p hp)
      refine ⟨by simp [htext], fun hmem => ?_, ?_⟩
      · rcases mem_text hp' (hA.inRange p hp) _ hmem with h | h
        · exact ne_of_plain h (d := ',') rfl rfl
        · exact absurd h (by decide)
      · rw [htext]
        intro d hd
        obtain rfl : c = d := by simpa using hd
        exact isSpace_of_plain hc
  have hsplit : splitString (joinWith ',' (s :: ps.map A.text)) ',' =
      some (s :: ps.map A.text) := splitString_join hwords (List.cons_ne_nil _ _)
  have hjoin : joinWith ',' (s :: ps.map A.text) ≠ [] := by
    intro hnil
    rw [hnil] at hsplit
    have hlen := length_le_joinWith hwords
    rw [hnil] at hlen
    simp at hlen
  have hsub : getSubstring (openDelim isEqual ::
      (joinWith ',' (s :: ps.map A.text) ++ [closeDelim isEqual])) (openDelim isEqual)
      (closeDelim isEqual) = some (joinWith ',' (s :: ps.map A.text)) :=
    getSubstring_delimited hopen hjoin fun h => ne_of_inner (hinner _ h) hclose rfl
  have hlen : ¬ (s :: ps.map A.text).length ≤ 1 := by
    have := List.length_pos_of_ne_nil (show ps ≠ [] from hk.ne_nil)
    simp only [List.length_cons, List.length_map]
    omega
  have hgroup : σ.parseGroupProbabilities isEqual (openDelim isEqual ::
      (joinWith ',' (s :: ps.map A.text) ++ [closeDelim isEqual])) =
      some (σ.assign A ps, none) := by
    unfold parseGroupProbabilities
    simp only [hsub, hsplit, Option.bind_eq_bind, Option.bind_some, if_neg hjoin, if_neg hlen,
      setupGroupProbabilities_text hk hA hs, Option.map_some]
  unfold parseLine
  rw [firstNonspaceChar_cons hopen]
  cases isEqual with
  | true => exact hgroup
  | false => exact hgroup

/-- **The text of an element is a line that is read back**; it is not blank, and
without a line end. -/
theorem parseLine_dumpVal (hk : Known e) (hA : Restorable A e) :
    ∃ x, A.dumpVal e = some x ∧ emptyLine x = false ∧ '\n' ∉ x ∧
      ∀ σ : Probabilities, σ.parseLine x = some (σ.assign A e.members, none) := by
  cases e with
  | single p =>
    have hs : (getSname p).isSome = true := hk.key
    have hr := hA.inRange p (by simp [ProbElem.members])
    obtain ⟨c, t, htext, hc⟩ := text_head hs hr
    refine ⟨A.text p, dumpSingle_eq hs, ?_, fun h => ?_, fun σ => parseLine_single hk hr⟩
    · simp [htext, emptyLine, isSpace_of_plain hc]
    · exact ne_of_inner (inner_of_text hs hr _ h) (d := '\n') rfl rfl
  | group isEqual pname ps =>
    obtain ⟨s, hs⟩ := Option.isSome_iff_exists.mp hk.key
    have hs : getSname pname = some s := hs
    have hmembers : A.dumpMembers ps = some (joinWith ',' (ps.map A.text)) :=
      dumpMembers_eq hk.ne_nil hk.members
    obtain ⟨q, qs, hqs⟩ := List.exists_cons_of_ne_nil (show ps ≠ [] from hk.ne_nil)
    have hjoin : joinWith ',' (s :: ps.map A.text) =
        s ++ ',' :: joinWith ',' (ps.map A.text) := by
      rw [hqs]
      rfl
    refine ⟨openDelim isEqual :: (joinWith ',' (s :: ps.map A.text) ++ [closeDelim isEqual]), ?_,
      ?_, fun h => ?_, fun σ => parseLine_group hk hA hs⟩
    · simp [dumpVal, hs, hmembers, hjoin]
    · cases isEqual <;> rfl
    · have hinner := inner_of_group hk hA.inRange hs '\n'
      rw [List.mem_cons, List.mem_append, List.mem_singleton] at h
      rcases h with h | h | h
      · cases isEqual <;> cases h
      · exact ne_of_inner (hinner h) (d := '\n') rfl rfl
      · cases isEqual <;> cases h

/-! ## The file -/

/-- A line of the file is the text up to its line end. -/
theorem lines_append (hx : '\n' ∉ x) : lines (x ++ '\n' :: s) = x :: lines s := by
  induction x with
  | nil => rw [List.nil_append, lines, if_pos rfl]
  | cons c x ih =>
    obtain ⟨hne, hx⟩ := not_or.mp fun h => hx (List.mem_cons.mpr h)
    rw [List.cons_append, lines, if_neg fun h => hne h.symm, ih hx]

/-- The parser goes on behind a line it has read, and the blank one after it. -/
theorem parseLines_line {τ : Probabilities} (hx : '\n' ∉ x) (hempty : emptyLine x = false)
    (hline : σ.parseLine x = some (τ, none)) :
    parseLines (lines (x ++ '\n' :: '\n' :: s)) σ = parseLines (lines s) τ := by
  have hblank : lines ('\n' :: s) = [] :: lines s := by
    rw [lines, if_pos rfl]
  have hskip : emptyLine [] = true := rfl
  rw [lines_append hx, hblank, parseLines, hempty, hline]
  simp only [Bool.false_eq_true, if_false]
  rw [parseLines, hskip, if_pos rfl]

/-- **The elements are read back one after the other.** -/
theorem parseLines_dumpElems {es : List ProbElem} (hk : ∀ e ∈ es, Known e)
    (hA : ∀ e ∈ es, Restorable A e) :
    ∃ xs, A.dumpElems es = some xs ∧ ∀ σ : Probabilities,
      parseLines (lines xs) σ = some (σ.assign A (es.flatMap ProbElem.members), none) := by
  induction es with
  | nil =>
    refine ⟨[], rfl, fun σ => ?_⟩
    have hend : parseLines (lines []) σ = some (σ, none) := rfl
    rw [hend, List.flatMap_nil, assign_nil]
  | cons e es ih =>
    obtain ⟨x, hdump, hempty, hx, hline⟩ :=
      parseLine_dumpVal (hk e List.mem_cons_self) (hA e List.mem_cons_self)
    obtain ⟨xs, hrest, hlines⟩ := ih (fun e' h => hk e' (List.mem_cons_of_mem _ h))
      fun e' h => hA e' (List.mem_cons_of_mem _ h)
    refine ⟨x ++ '\n' :: '\n' :: xs, by simp [dumpElems, hdump, hrest], fun σ => ?_⟩
    rw [parseLines_line hx hempty (hline σ), hlines, assign_assign, List.flatMap_cons]

/-- The comment in front of the elements. -/
def seedLine (seed : ℕ) : List Char := "# Seed: ".toList ++ decimal seed

theorem seedLine_ok (seed : ℕ) : '\n' ∉ seedLine seed ∧ emptyLine (seedLine seed) = false ∧
    ∀ σ : Probabilities, σ.parseLine (seedLine seed) = some (σ, none) := by
  refine ⟨fun h => ?_, rfl, fun σ => ?_⟩
  · rcases List.mem_append.mp h with h | h
    · revert h
      decide
    · exact ne_of_plain (plain_decimal seed _ h) (d := '\n') rfl rfl
  · have hfirst : firstNonspaceChar (seedLine seed) = '#' := firstNonspaceChar_cons rfl
    unfold parseLine
    simp only [hfirst]
    rfl

/-! ## Admissible values -/

theorem layout_nodup : ∀ e ∈ layout, e.members.Nodup := by
  decide +kernel

/-- Every member of an element is between zero and a hundred. -/
theorem Admissible.inRange (hA : A.Admissible) (he : e ∈ layout) (hp : p ∈ e.members) :
    InRange A p := by
  have hbounds : 0 ≤ A.val p ∧ A.val p ≤ 100 := by
    cases e with
    | single q =>
      obtain rfl : p = q := by simpa [ProbElem.members] using hp
      exact hA.single p he
    | group isEqual pname ps =>
      have hp : p ∈ ps := hp
      have hok := hA.group _ _ _ he
      cases isEqual with
      | true =>
        have hok : (∀ p ∈ ps, A.val p = 0 ∨ A.val p = 1) ∧ ∃ p ∈ ps, A.val p = 1 := hok
        have := hok.1 p hp
        omega
      | false =>
        have hok : (∀ p ∈ ps, 0 ≤ A.val p ∧ A.val p ≤ 100) ∧ (∃ p ∈ ps, A.val p = 100) ∧
          ∀ p ∈ ps, ∀ q ∈ ps, 0 < A.val p → A.val p = A.val q → p = q := hok
        exact hok.1 p hp
  refine ⟨hbounds.1, hbounds.2, ?_⟩
  rintro rfl
  exact hA.void

theorem Admissible.restorable (hA : A.Admissible) (he : e ∈ layout) : Restorable A e where
  inRange := fun _ hp => hA.inRange he hp
  group := by
    rintro isEqual pname probs rfl
    exact hA.group _ _ _ he
  nodup := layout_nodup e he

/-- **A dumped configuration restores itself.** The file written from admissible
values is parsed without an error and without a failed assertion, and then
every single probability and every member of every group has the value it was
written with, whatever it was before. -/
theorem parseConfiguration_dumpActualProbabilities (A B : Probabilities) (hA : A.Admissible)
    (seed : ℕ) :
    ∃ file C, A.dumpActualProbabilities seed = some file ∧
      B.parseConfiguration (some file) = some (C, none) ∧
      ∀ e ∈ layout, ∀ p ∈ e.members, C.val p = A.val p := by
  have hall : ∀ e ∈ layout, Restorable A e := fun e he => hA.restorable he
  obtain ⟨xs, hdump, hlines⟩ := parseLines_dumpElems layout_known hall
  obtain ⟨hnl, hempty, hline⟩ := seedLine_ok seed
  have hfile : A.dumpActualProbabilities seed = some (seedLine seed ++ '\n' :: '\n' :: xs) := by
    unfold dumpActualProbabilities
    rw [hdump]
    rfl
  refine ⟨_, B.assign A (layout.flatMap ProbElem.members), hfile, ?_, fun e he p hp => ?_⟩
  · have hparse : B.parseConfiguration (some (seedLine seed ++ '\n' :: '\n' :: xs)) =
        parseLines (lines (seedLine seed ++ '\n' :: '\n' :: xs)) B := rfl
    rw [hparse, parseLines_line hnl hempty (hline B), hlines]
  · exact if_pos (List.mem_flatMap.mpr ⟨e, he, hp⟩)

/-- The default values of the statements, and of the groups without weights;
the others at fifty. -/
def sample : Probabilities :=
  ⟨fun p =>
    if p ∈ [.pMinusProb, .pAddProb, .pIntProb, .pInt32Prob, .pNotProb, .pUIntProb] then 1
    else if p = .pAssignProb then 100
    else if p = .pForProb then 30
    else if p = .pIfElseProb then 15
    else 0⟩

/-- `GroupOk`, of an element that is a group. -/
def elemOk (σ : Probabilities) : ProbElem → Bool
  | .single _ => true
  | .group isEqual _ probs => decide (σ.GroupOk isEqual probs)

theorem sample_admissible : sample.Admissible where
  single := by
    have h : ∀ e ∈ layout, ∀ p ∈ e.members, 0 ≤ sample.val p ∧ sample.val p ≤ 100 := by
      decide +kernel
    exact fun p hp => h _ hp p (by simp [ProbElem.members])
  group := by
    have h : layout.all sample.elemOk = true := by
      decide +kernel
    exact fun isEqual pname probs hp => of_decide_eq_true (List.all_eq_true.mp h _ hp)
  void := rfl

/-- The sample restores itself over values that are all zero. -/
theorem parseConfiguration_dumpActualProbabilities_sample :
    ∃ file C, sample.dumpActualProbabilities 7 = some file ∧
      Probabilities.parseConfiguration ⟨fun _ => 0⟩ (some file) = some (C, none) ∧
      ∀ e ∈ layout, ∀ p ∈ e.members, C.val p = sample.val p :=
  parseConfiguration_dumpActualProbabilities sample ⟨fun _ => 0⟩ sample_admissible 7

end Probabilities

end CLSmith
