import CLSmith.Launcher.Arguments
import CLSmith.Launcher.Geometry
import Mathlib.Algebra.Order.Ring.Nat
/-!
# Generator and launcher agree

What `parse_file_args` reads in the first line of a program is what the
generator used, and the launcher's buffers are bound to the parameters of the
kernel one by one.
-/

namespace CLSmith

namespace Launcher

open Common.CString

/-! ## The geometry drawn -/

section Geometry

variable {t t' : Tape}

/-- **The geometry** has three dimensions, of which none is over a hundred. -/
theorem initRuntime_geometry {r : Runtime} (h : initRuntime rndAny t = some (r, t')) :
    r.globalDim.length = 3 ∧ r.localDim.length = 3 ∧
      (∀ d ∈ r.globalDim, d ≤ maxThrPerDim) ∧ ∀ d ∈ r.localDim, d ≤ maxThrPerDim := by
  unfold initRuntime at h
  obtain ⟨⟨g, n⟩, t₁, hg, h⟩ := Gen.bind_eq_some.mp h
  obtain ⟨l, t₂, hl, h⟩ := Gen.bind_eq_some.mp h
  simp only [Gen.pure_apply, Option.some.injEq, Prod.mk.injEq] at h
  obtain ⟨rfl, rfl⟩ := h
  obtain ⟨used, -, -, -, hlen, -, -, hall, -⟩ := drawGlobal_spec (by decide) (by decide) hg
  obtain ⟨skipped, last, -, -, hdiv, -⟩ := drawGroup_spec hl
  refine ⟨hlen, hdiv.length_eq.trans hlen, fun d hd => (hall d hd).2, fun d hd => ?_⟩
  -- a size of a group divides the one of the whole
  obtain ⟨i, hi, rfl⟩ := List.getElem_of_mem hd
  have hig : i < g.length := hdiv.length_eq ▸ hi
  have hdim := hall g[i] (List.getElem_mem hig)
  have hdvd : l[i] ∣ g[i] := hdiv.get hi hig
  exact (Nat.le_of_dvd hdim.1 hdvd).trans hdim.2

theorem launchParameters_spec {o : CLOptions} {g : Geometry} {n : ℕ}
    (h : launchParameters o t = some ((g, n), t')) :
    g.globalDim.length = 3 ∧ g.localDim.length = 3 ∧
      (∀ d ∈ g.globalDim, d ≤ maxThrPerDim) ∧ (∀ d ∈ g.localDim, d ≤ maxThrPerDim) ∧ n ≤ 99 := by
  unfold launchParameters at h
  obtain ⟨r, t₁, hg, h⟩ := Gen.bind_eq_some.mp h
  obtain ⟨n', t₂, hn, h⟩ := Gen.bind_eq_some.mp h
  simp only [Gen.pure_apply, Option.some.injEq, Prod.mk.injEq] at h
  obtain ⟨⟨rfl, rfl⟩, -⟩ := h
  obtain ⟨h1, h2, h3, h4⟩ := initRuntime_geometry hg
  refine ⟨h1, h2, h3, h4, ?_⟩
  unfold noAtomicBlocks at hn
  split_ifs at hn
  · unfold initAtomics at hn
    obtain ⟨r, t₃, hr, hn⟩ := Gen.bind_eq_some.mp hn
    simp only [Gen.pure_apply, Option.some.injEq, Prod.mk.injEq] at hn
    have := rndUpto_lt (by decide) hr
    omega
  · simp only [Gen.pure_apply, Option.some.injEq, Prod.mk.injEq] at hn
    omega

end Geometry

/-! ## Dimensions -/

section Dims

variable {dims : List ℕ}

/-- The characters of dimensions are digits and commas. -/
theorem mem_dimsText : ∀ c ∈ dimsText dims, c.isDigit = true ∨ c = ',' := by
  induction dims using dimsText.induct with
  | case1 => exact fun c hc => nomatch hc
  | case2 d => exact fun c hc => .inl (isDigit_of_mem_decimal d c hc)
  | case3 d dims hne ih =>
    intro c hc
    rw [dimsText] at hc
    · rcases List.mem_append.mp hc with hc | hc
      · exact .inl (isDigit_of_mem_decimal d c hc)
      · rcases List.mem_cons.mp hc with rfl | hc
        · exact .inr rfl
        · exact ih c hc
    · exact hne

theorem dimsText_ne_nil (h : dims ≠ []) : dimsText dims ≠ [] := by
  induction dims using dimsText.induct with
  | case1 => exact absurd rfl h
  | case2 d => exact decimal_ne_nil d
  | case3 d dims hne ih =>
    rw [dimsText]
    · simp
    · exact hne

theorem length_dimsText_le (h : ∀ d ∈ dims, d < 1000) :
    (dimsText dims).length ≤ 4 * dims.length := by
  induction dims using dimsText.induct with
  | case1 => simp [dimsText]
  | case2 d =>
    have := length_decimal_le (k := 3) (h d List.mem_cons_self) (by decide)
    simp only [dimsText, List.length_singleton]
    omega
  | case3 d dims hne ih =>
    obtain ⟨hd, hdims⟩ := List.forall_mem_cons.mp h
    have hd' := length_decimal_le (k := 3) hd (by decide)
    have := ih hdims
    rw [dimsText]
    · simp only [List.length_append, List.length_cons]
      omega
    · exact hne

theorem comma_notMem_decimal (d : ℕ) : ',' ∉ decimal d := fun h =>
  absurd (isDigit_of_mem_decimal d _ h) (by decide)

/-- A size that can be drawn is read as it was printed, through the types of C. -/
theorem toSize_decimal {d : ℕ} (h : d ≤ maxThrPerDim) : Dimensions.toSize (decimal d) = d := by
  have hle : d ≤ 100 := h
  have hlong : max (Common.IntTy.minVal ⟨true, .w64⟩)
      (min (Common.IntTy.maxVal ⟨true, .w64⟩) (d : ℤ)) = d := by
    rw [show Common.IntTy.minVal ⟨true, .w64⟩ = -2 ^ 63 from rfl,
      show Common.IntTy.maxVal ⟨true, .w64⟩ = 2 ^ 63 - 1 from rfl]
    omega
  have hint : Common.IntTy.int.InRange (d : ℤ) := by
    unfold Common.IntTy.InRange
    rw [show Common.IntTy.int.minVal = -2 ^ 31 from rfl,
      show Common.IntTy.int.maxVal = 2 ^ 31 - 1 from rfl]
    omega
  have hsize : Dimensions.sizeT.InRange (d : ℤ) := by
    unfold Common.IntTy.InRange
    rw [show Dimensions.sizeT.minVal = 0 from rfl,
      show Dimensions.sizeT.maxVal = 2 ^ 64 - 1 from rfl]
    omega
  unfold Dimensions.toSize
  simp only [atoi_decimal, hlong, Common.IntTy.wrap_of_inRange hint,
    Common.IntTy.wrap_of_inRange hsize, Int.toNat_natCast]

/-- **Dimensions are read as they were printed**, and counted by their
commas. -/
theorem parse_dimsText (h : dims ≠ []) (hle : ∀ d ∈ dims, d ≤ maxThrPerDim) (dflt : ℕ) :
    Dimensions.parse (dimsText dims) dflt = ⟨dims.length, dims⟩ := by
  have key : 1 + (dimsText dims).count ',' = dims.length ∧
      (tokens ',' (dimsText dims)).map Dimensions.toSize = dims := by
    induction dims using dimsText.induct with
    | case1 => exact absurd rfl h
    | case2 d =>
      have htok : tokens ',' (decimal d) = [decimal d] := by
        have hword := tokens_word (decimal_ne_nil d) (comma_notMem_decimal d) (.inl (Eq.refl []))
        rwa [List.append_nil, tokens_nil] at hword
      simp [dimsText, htok, toSize_decimal (hle d List.mem_cons_self),
        List.count_eq_zero_of_not_mem (comma_notMem_decimal d)]
    | case3 d dims hne ih =>
      obtain ⟨hd, hdims⟩ := List.forall_mem_cons.mp hle
      obtain ⟨hcount, hread⟩ := ih (by simpa using hne) hdims
      rw [dimsText]
      · rw [tokens_word (decimal_ne_nil d) (comma_notMem_decimal d) (.inr ⟨_, rfl⟩), tokens_delim]
        simp only [List.count_append, List.count_cons_self, List.map_cons, hread,
          toSize_decimal hd, List.length_cons,
          List.count_eq_zero_of_not_mem (comma_notMem_decimal d)]
        exact ⟨by omega, trivial⟩
      · exact hne
  unfold Dimensions.parse
  rw [if_neg (dimsText_ne_nil h), key.1, key.2]

end Dims

/-! ## The first line -/

section Line

variable (o : CLOptions) (n : ℕ) (g : Geometry)

/-- An option's words, where it is set. -/
def wordsIf (b : Bool) (ws : List (List Char)) : List (List Char) := if b then ws else []

/-- The words of the line behind the slashes. -/
def infoWords : List (List Char) :=
  wordsIf o.atomics ["--atomics".toList, decimal n]
    ++ wordsIf o.atomicReductions ["---atomic_reductions".toList]
    ++ wordsIf o.fakeDivergence ["---fake_divergence".toList]
    ++ wordsIf o.interThreadComm ["---inter_thread_comm".toList]
    ++ wordsIf o.emi ["---emi".toList]
    ++ ["-g".toList, dimsText g.globalDim, "-l".toList, dimsText g.localDim]

/-- A word with nothing in it that ends one or the line. -/
def Word (w : List Char) : Prop := w ≠ [] ∧ ' ' ∉ w ∧ '\n' ∉ w

theorem word_of_digits {w : List Char} (hne : w ≠ [])
    (h : ∀ c ∈ w, c.isDigit = true ∨ c = ',') : Word w := by
  refine ⟨hne, fun hc => ?_, fun hc => ?_⟩
  · exact absurd (h _ hc) (by decide)
  · exact absurd (h _ hc) (by decide)

theorem runtimeInfo_eq :
    runtimeInfo o n g = "//".toList ++ (infoWords o n g).flatMap fun w => ' ' :: w := by
  have hwords : ∀ (b : Bool) (ws : List (List Char)),
      (wordsIf b ws).flatMap (fun w => ' ' :: w) = textIf b (ws.flatMap fun w => ' ' :: w) := by
    intro b ws
    cases b <;> rfl
  have hatomics : (["--atomics".toList, decimal n].flatMap fun w => ' ' :: w) =
      " --atomics ".toList ++ decimal n := by
    simp
  have hdims : (["-g".toList, dimsText g.globalDim, "-l".toList, dimsText g.localDim].flatMap
      fun w => ' ' :: w) = " -g ".toList ++ dimsText g.globalDim ++ (" -l ".toList
        ++ dimsText g.localDim) := by
    simp
  unfold runtimeInfo infoWords
  simp only [List.flatMap_append, hwords, hatomics, hdims, ← List.append_assoc]
  rfl

variable {g}

theorem infoWords_word (hg : g.globalDim ≠ []) (hl : g.localDim ≠ []) :
    ∀ w ∈ infoWords o n g, Word w := by
  have hif : ∀ (b : Bool) (ws : List (List Char)), (∀ w ∈ ws, Word w) →
      ∀ w ∈ wordsIf b ws, Word w := by
    intro b ws h
    cases b with
    | false => exact fun w hw => absurd hw List.not_mem_nil
    | true => exact h
  have hdims : ∀ {dims : List ℕ}, dims ≠ [] → Word (dimsText dims) := fun hd =>
    word_of_digits (dimsText_ne_nil hd) mem_dimsText
  have hdec : Word (decimal n) :=
    word_of_digits (decimal_ne_nil n) fun c hc => .inl (isDigit_of_mem_decimal n c hc)
  have hlit : ∀ w ∈ ["--atomics".toList, "---atomic_reductions".toList,
      "---fake_divergence".toList, "---inter_thread_comm".toList, "---emi".toList, "-g".toList,
      "-l".toList], Word w := by
    unfold Word
    decide
  unfold infoWords
  simp only [List.forall_mem_append]
  refine ⟨⟨⟨⟨⟨hif _ _ ?_, hif _ _ ?_⟩, hif _ _ ?_⟩, hif _ _ ?_⟩, hif _ _ ?_⟩, ?_⟩
  · exact List.forall_mem_cons.mpr ⟨hlit _ (by simp), by simpa using hdec⟩
  · simpa using hlit _ (by simp)
  · simpa using hlit _ (by simp)
  · simpa using hlit _ (by simp)
  · simpa using hlit _ (by simp)
  · simp only [List.forall_mem_cons]
    exact ⟨hlit _ (by simp), hdims hg, hlit _ (by simp), hdims hl,
      fun w hw => absurd hw List.not_mem_nil⟩

/-- **The words of the line are read back.** -/
theorem tokens_runtimeInfo (hg : g.globalDim ≠ []) (hl : g.localDim ≠ []) :
    tokens ' ' (runtimeInfo o n g) = "//".toList :: infoWords o n g := by
  have key : ∀ (ws : List (List Char)) (w : List Char), Word w → (∀ w ∈ ws, Word w) →
      tokens ' ' (w ++ ws.flatMap fun w => ' ' :: w) = w :: ws := by
    intro ws
    induction ws with
    | nil =>
      intro w hw _
      rw [List.flatMap_nil, tokens_word hw.1 hw.2.1 (.inl rfl), tokens_nil]
    | cons w' ws ih =>
      intro w hw hws
      obtain ⟨hw', hws'⟩ := List.forall_mem_cons.mp hws
      rw [List.flatMap_cons, List.cons_append, tokens_word hw.1 hw.2.1 (.inr ⟨_, rfl⟩),
        tokens_delim,
        ih w' hw' hws']
  rw [runtimeInfo_eq]
  refine key _ _ ?_ (infoWords_word o n hg hl)
  unfold Word
  decide

theorem newline_notMem_runtimeInfo (hg : g.globalDim ≠ []) (hl : g.localDim ≠ []) :
    '\n' ∉ runtimeInfo o n g := by
  rw [runtimeInfo_eq]
  intro h
  rcases List.mem_append.mp h with h | h
  · exact absurd h (by decide)
  · obtain ⟨w, hw, hc⟩ := List.mem_flatMap.mp h
    rcases List.mem_cons.mp hc with hc | hc
    · exact absurd hc (by decide)
    · exact (infoWords_word o n hg hl w hw).2.2 hc

/-- **The line fits the launcher's buffer.** -/
theorem length_runtimeInfo_lt (hn : n ≤ 99) (hg : g.globalDim.length = 3)
    (hl : g.localDim.length = 3) (hg' : ∀ d ∈ g.globalDim, d ≤ maxThrPerDim)
    (hl' : ∀ d ∈ g.localDim, d ≤ maxThrPerDim) : (runtimeInfo o n g).length < 128 := by
  have hif : ∀ (b : Bool) (s : List Char), (textIf b s).length ≤ s.length := by
    intro b s
    cases b <;> simp [textIf]
  have h100 : ∀ {dims : List ℕ}, (∀ d ∈ dims, d ≤ maxThrPerDim) → ∀ d ∈ dims, d < 1000 := by
    intro dims h d hd
    have := h d hd
    unfold maxThrPerDim at this
    omega
  have hdec := length_decimal_le (k := 2) (n := n) (by omega) (by decide)
  have h1 := hif o.atomics (" --atomics ".toList ++ decimal n)
  have h2 := hif o.atomicReductions " ---atomic_reductions".toList
  have h3 := hif o.fakeDivergence " ---fake_divergence".toList
  have h4 := hif o.interThreadComm " ---inter_thread_comm".toList
  have h5 := hif o.emi " ---emi".toList
  have hgl := length_dimsText_le (h100 hg')
  have hll := length_dimsText_le (h100 hl')
  have hlen : ∀ s ∈ [("//", 2), (" --atomics ", 11), (" ---atomic_reductions", 21),
      (" ---fake_divergence", 19), (" ---inter_thread_comm", 21), (" ---emi", 7), (" -g ", 4),
      (" -l ", 4)], (s.1 : String).toList.length = s.2 := by
    decide
  simp only [List.forall_mem_cons] at hlen
  obtain ⟨e1, e2, e3, e4, e5, e6, e7, e8, -⟩ := hlen
  unfold runtimeInfo
  simp only [List.length_append] at h1 ⊢
  omega

end Line

/-! ## What is parsed -/

section Parse

variable (s : Input) (toks : List (List Char))

theorem parseTokens_atomics (b : Bool) (n : ℕ) :
    parseTokens (wordsIf b ["--atomics".toList, decimal n] ++ toks) s =
      parseTokens toks { s with
        atomics := b || s.atomics
        atomicCounterNo := if b then (n : ℤ) else s.atomicCounterNo } := by
  cases b with
  | false => rfl
  | true =>
    rw [← atoi_decimal n]
    rfl

/-- A flag, which has no value. -/
theorem parseTokens_flag {w : List Char} {s s' : Input} {ret : ℕ}
    (hw : "---".toList.isPrefixOf w = true) (h : parseArg w none s = some (s', ret)) :
    parseTokens (w :: toks) s = parseTokens toks s' := by
  rw [parseTokens.eq_def]
  simp only [hw, if_true, h]
  rfl

/-- A word that is no argument is passed over. -/
theorem parseTokens_skip {w : List Char} (hw : "---".toList.isPrefixOf w = false)
    (hw' : "-".toList.isPrefixOf w = false) : parseTokens (w :: toks) s = parseTokens toks s := by
  rw [parseTokens.eq_def]
  simp only [hw, hw', Bool.false_eq_true, if_false]

theorem parseTokens_atomicReductions (b : Bool) :
    parseTokens (wordsIf b ["---atomic_reductions".toList] ++ toks) s =
      parseTokens toks { s with atomicReductions := b || s.atomicReductions } := by
  cases b with
  | false => rfl
  | true => exact parseTokens_flag toks rfl rfl

theorem parseTokens_fakeDivergence (b : Bool) :
    parseTokens (wordsIf b ["---fake_divergence".toList] ++ toks) s =
      parseTokens toks { s with fakeDivergence := b || s.fakeDivergence } := by
  cases b with
  | false => rfl
  | true => exact parseTokens_flag toks rfl rfl

theorem parseTokens_interThreadComm (b : Bool) :
    parseTokens (wordsIf b ["---inter_thread_comm".toList] ++ toks) s =
      parseTokens toks { s with interThreadComm := b || s.interThreadComm } := by
  cases b with
  | false => rfl
  | true => exact parseTokens_flag toks rfl rfl

theorem parseTokens_emi (b : Bool) :
    parseTokens (wordsIf b ["---emi".toList] ++ toks) s =
      parseTokens toks { s with emi := b || s.emi } := by
  cases b with
  | false => rfl
  | true => exact parseTokens_flag toks rfl rfl

/-- What the launcher knows of a program once its first line is read. -/
def readInfo (o : CLOptions) (n : ℕ) (g : Geometry) : Input :=
  { atomics := o.atomics
    atomicCounterNo := if o.atomics then n else 0
    atomicReductions := o.atomicReductions
    emi := o.emi
    fakeDivergence := o.fakeDivergence
    interThreadComm := o.interThreadComm
    globalDims := dimsText g.globalDim
    localDims := dimsText g.localDim }

theorem parseTokens_infoWords (o : CLOptions) (n : ℕ) (g : Geometry) :
    parseTokens (infoWords o n g) {} = some (readInfo o n g) := by
  unfold infoWords
  simp only [List.append_assoc]
  rw [parseTokens_atomics, parseTokens_atomicReductions, parseTokens_fakeDivergence,
    parseTokens_interThreadComm, parseTokens_emi]
  unfold readInfo
  simp only [Bool.or_false]
  rfl

end Parse

/-- **A buffer is bound to every parameter**, in order, at the indices from
nought on. -/
theorem setKernelArgs_eq (o : CLOptions) (n : ℕ) (g : Geometry) (globalSize localSize : List ℤ) :
    (setKernelArgs (readInfo o n g) globalSize localSize).2.map
        (fun call => (call.1, call.2.name, call.2.elem)) =
      (entryParams o).zipIdx.map fun param => (param.2, param.1.buffer, param.1.elem) := by
  unfold setKernelArgs entryParams moreParams readInfo
  cases o.atomics <;> cases o.atomicReductions <;> cases o.emi <;> cases o.fakeDivergence <;>
    cases o.interThreadComm <;> rfl

/-- **Generator and launcher agree.** Of a program with any text behind its
first line, for every setting of the options and everything the generator can
draw, the launcher reads the features, the number of atomic blocks and the
dimensions the generator used and nothing else; and it binds a buffer of the
right elements to each parameter of the kernel that is printed, in order. -/
theorem launcher_agrees (o : CLOptions) {t t' : Tape} {g : Geometry} {n : ℕ}
    (h : launchParameters o t = some ((g, n), t')) (program : List Char) :
    parseFileArgs (runtimeInfo o n g ++ '\n' :: program) {} = some (readInfo o n g) ∧
    Dimensions.parse (readInfo o n g).globalDims defGlobalSize.toNat =
      ⟨g.globalDim.length, g.globalDim⟩ ∧
    Dimensions.parse (readInfo o n g).localDims defLocalSize.toNat =
      ⟨g.localDim.length, g.localDim⟩ ∧
    entryFunction o = "__kernel void entry(".toList ++ KernelParam.result.decl.toList
      ++ (moreParams o).flatMap (fun p => ", ".toList ++ p.decl.toList) ++ ") \x7b".toList ∧
    ∀ globalSize localSize, (setKernelArgs (readInfo o n g) globalSize localSize).2.map
        (fun call => (call.1, call.2.name, call.2.elem)) =
      (entryParams o).zipIdx.map fun param => (param.2, param.1.buffer, param.1.elem) := by
  obtain ⟨hglen, hllen, hg, hl, hn⟩ := launchParameters_spec h
  have hgne : g.globalDim ≠ [] := fun h0 => by simp [h0] at hglen
  have hlne : g.localDim ≠ [] := fun h0 => by simp [h0] at hllen
  refine ⟨?_, parse_dimsText hgne hg _, parse_dimsText hlne hl _, entryFunction_eq o,
    setKernelArgs_eq o n g⟩
  have hline : cutNewline (fgets 128 (runtimeInfo o n g ++ '\n' :: program)) = runtimeInfo o n g :=
    cutNewline_fgets (newline_notMem_runtimeInfo o n hgne hlne)
      (length_runtimeInfo_lt o n hn hglen hllen hg hl)
  have hslashes : "//".toList.isPrefixOf (runtimeInfo o n g) = true := by
    rw [runtimeInfo_eq]
    exact List.isPrefixOf_iff_prefix.mpr (List.prefix_append _ _)
  unfold parseFileArgs
  simp only [hline, hslashes, if_true, tokens_runtimeInfo o n hgne hlne]
  rw [parseTokens_skip _ _ rfl rfl]
  exact parseTokens_infoWords o n g

/-- Eight work items in groups of two and seven atomic blocks, with EMI. -/
theorem launcher_agrees_emi :
    parseFileArgs (runtimeInfo { atomics := true, emi := true } 7 ⟨[4, 2, 1], [1, 2, 1]⟩
        ++ '\n' :: []) {} =
      some (readInfo { atomics := true, emi := true } 7 ⟨[4, 2, 1], [1, 2, 1]⟩) :=
  (launcher_agrees { atomics := true, emi := true }
    (show launchParameters _ [3, 1, 0, 0, 1, 0, 6] = some (_, []) by rfl) []).1

end Launcher

end CLSmith
