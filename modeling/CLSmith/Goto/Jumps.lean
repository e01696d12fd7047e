import CLSmith.Goto.Wellformed
/-!
# What a jump drawn is like

`find_good_jump_block` returns a block it was given, and one for which its checks
went through; a jump that skips no initialisation leads only into blocks without
local variables.
-/

namespace CLSmith

namespace Generate

namespace Func

variable {M : Type} {f : Func M} {b c d s t new : ℕ} {l : List ℕ}

/-! ## Insertion -/

theorem mem_insertAfter_of_mem (h : t ∈ l) : t ∈ insertAfter s new l := by
  induction l with
  | nil => cases h
  | cons a l ih =>
    unfold insertAfter
    split
    · rcases List.mem_cons.mp h with rfl | h
      · exact List.mem_cons_self
      · exact List.mem_cons_of_mem _ (List.mem_cons_of_mem _ h)
    · rcases List.mem_cons.mp h with rfl | h
      · exact List.mem_cons_self
      · exact List.mem_cons_of_mem _ (ih h)

theorem mem_insertAfter_new (h : s ∈ l) : new ∈ insertAfter s new l := by
  induction l with
  | nil => cases h
  | cons a l ih =>
    unfold insertAfter
    split
    · exact List.mem_cons_of_mem _ List.mem_cons_self
    · next hne =>
      refine List.mem_cons_of_mem _ (ih ?_)
      exact (List.mem_cons.mp h).resolve_left (Ne.symm hne)

theorem nodup_insertAfter (h : l.Nodup) (hnew : new ∉ l) : (insertAfter s new l).Nodup := by
  induction l with
  | nil => exact h
  | cons a l ih =>
    obtain ⟨ha, hl⟩ := List.nodup_cons.mp h
    have hne : new ≠ a := fun heq => hnew (heq ▸ List.mem_cons_self)
    have hnew' : new ∉ l := fun hin => hnew (List.mem_cons_of_mem _ hin)
    unfold insertAfter
    split
    · refine List.nodup_cons.mpr ⟨?_, List.nodup_cons.mpr ⟨hnew', hl⟩⟩
      intro hin
      exact (List.mem_cons.mp hin).elim (Ne.symm hne) ha
    · refine List.nodup_cons.mpr ⟨?_, ih hl hnew'⟩
      intro hin
      exact (mem_of_mem_insertAfter hin).elim (Ne.symm hne) ha

/-! ## The draws -/

/-- **The checks a jump between `blk` and `b` goes through**: those on the
current block, which come before the first draw, and those on the block
drawn. -/
structure Admits (f : Func M) (blk b : ℕ) (asDest : Bool) : Prop where
  notArray : asDest = false → (f.block blk).inArrayLoop = false
  nonempty : asDest = false → (f.block blk).stms ≠ []
  goesOn : asDest = true → (f.getLastStm blk).any (f.mustReturn f.nextStm) = false
  good : f.goodJumpBlock blk b asDest = true

theorem findGoodJumpBlock_spec {blk n : ℕ} {asDest : Bool} {blocks : List ℕ} {tape tape' : Tape}
    (h : f.findGoodJumpBlock blk asDest n blocks tape = some (some b, tape')) :
    b ∈ blocks ∧ f.Admits blk b asDest := by
  induction n generalizing blocks tape with
  | zero => cases h
  | succ n ih =>
    unfold findGoodJumpBlock at h
    split at h
    · cases h
    · next harray =>
      split at h
      · cases h
      · next hempty =>
        split at h
        · cases h
        · next hreturns =>
          obtain ⟨index, tape₁, -, h⟩ := Gen.bind_eq_some.mp h
          obtain ⟨c, tape₂, hindex, h⟩ := Gen.bind_eq_some.mp h
          obtain ⟨hget, -⟩ := Gen.ofOption_eq_some.mp hindex
          split at h
          · next hgood =>
            cases h
            refine ⟨List.mem_of_getElem? hget, ?_, ?_, ?_, hgood⟩
            · rintro rfl
              simpa using harray
            · rintro rfl
              simpa using hempty
            · rintro rfl
              simpa using hreturns
          · obtain ⟨hmem, hspec⟩ := ih h
            exact ⟨List.mem_of_mem_eraseIdx hmem, hspec⟩

/-- A block the checks let through is drawn by its index. -/
theorem findGoodJumpBlock_of_admits {blk n k : ℕ} {asDest : Bool} {blocks : List ℕ} {tape : Tape}
    (hk : blocks[k]? = some b) (h : f.Admits blk b asDest) :
    f.findGoodJumpBlock blk asDest (n + 1) blocks (k :: tape) = some (some b, tape) := by
  have hlt : k < blocks.length := (List.getElem?_eq_some_iff.mp hk).1
  have harray : ((f.block blk).inArrayLoop && !asDest) = false := by
    cases asDest with
    | false => simpa using h.notArray rfl
    | true => simp
  have hempty : ((f.block blk).stms.isEmpty && !asDest) = false := by
    cases asDest with
    | false => simpa using h.nonempty rfl
    | true => simp
  have hreturns : ((f.getLastStm blk).any (f.mustReturn f.nextStm) && asDest) = false := by
    cases asDest with
    | false => simp
    | true => simpa using h.goesOn rfl
  unfold findGoodJumpBlock
  simp only [harray, hempty, hreturns, Bool.false_eq_true, if_false]
  refine Gen.bind_eq_some.mpr ⟨k, tape, ?_, Gen.bind_eq_some.mpr ⟨b, tape, ?_, ?_⟩⟩
  · simp [rndUpto, Nat.mod_eq_of_lt hlt]
  · exact Gen.ofOption_eq_some.mpr ⟨hk, rfl⟩
  · simp [h.good]

theorem chooseBlock_spec {currBlk : ℕ} {select back : Bool} {tape tape' : Tape}
    (h : f.chooseBlock currBlk select tape = some ((back, some b), tape')) :
    b ∈ f.blocks ∧ f.Admits currBlk b back := by
  unfold chooseBlock at h
  obtain ⟨o, tape₁, hback, h⟩ := Gen.bind_eq_some.mp h
  cases o with
  | some c =>
    cases h
    split at hback
    · exact findGoodJumpBlock_spec hback
    · cases hback
  | none =>
    obtain ⟨o, tape₂, hforward, h⟩ := Gen.bind_eq_some.mp h
    cases h
    exact findGoodJumpBlock_spec hforward

theorem chooseBlock_of_admits {currBlk k : ℕ} {back : Bool} {tape : Tape}
    (hk : f.blocks[k]? = some b) (h : f.Admits currBlk b back) :
    f.chooseBlock currBlk back (k :: tape) = some ((back, some b), tape) := by
  have hlt : k < f.blocks.length := (List.getElem?_eq_some_iff.mp hk).1
  obtain ⟨n, hn⟩ : ∃ n, f.blocks.length = n + 1 := ⟨f.blocks.length - 1, by omega⟩
  unfold chooseBlock
  rw [hn]
  cases back with
  | true =>
    refine Gen.bind_eq_some.mpr ⟨some b, tape, ?_, rfl⟩
    exact findGoodJumpBlock_of_admits hk h
  | false =>
    refine Gen.bind_eq_some.mpr ⟨none, k :: tape, rfl, ?_⟩
    refine Gen.bind_eq_some.mpr ⟨some b, tape, ?_, rfl⟩
    exact findGoodJumpBlock_of_admits hk h

/-- **The jumps that can be drawn** are those to or from a statement of
`ok_stms`, in a block of the function the checks let through. -/
theorem jump_iff {j : Jump} : (∃ draws, f.jump b draws = some j) ↔
    j.block ∈ f.blocks ∧ f.Admits b j.block j.backEdge ∧ j.otherStm ∈ f.okStms b j.block := by
  constructor
  · rintro ⟨draws, h⟩
    unfold jump at h
    obtain ⟨⟨o, tape⟩, hdraw, ho⟩ := Option.bind_eq_some_iff.mp h
    obtain rfl : o = some j := ho
    unfold chooseJump at hdraw
    obtain ⟨select, tape₁, -, hdraw⟩ := Gen.bind_eq_some.mp hdraw
    obtain ⟨⟨back, okBlk⟩, tape₂, hchoose, hdraw⟩ := Gen.bind_eq_some.mp hdraw
    cases okBlk with
    | none => cases hdraw
    | some c =>
      simp only at hdraw
      split at hdraw
      · cases hdraw
      · obtain ⟨stmId, tape₃, -, hdraw⟩ := Gen.bind_eq_some.mp hdraw
        obtain ⟨otherStm, tape₄, hother, hdraw⟩ := Gen.bind_eq_some.mp hdraw
        cases hdraw
        obtain ⟨hmem, hadmits⟩ := chooseBlock_spec hchoose
        obtain ⟨hget, -⟩ := Gen.ofOption_eq_some.mp hother
        exact ⟨hmem, hadmits, List.mem_of_getElem? hget⟩
  · rintro ⟨hmem, hadmits, hok⟩
    obtain ⟨k, hk⟩ := List.getElem?_of_mem hmem
    obtain ⟨l, hl⟩ := List.getElem?_of_mem hok
    have hllt : l < (f.okStms b j.block).length := (List.getElem?_eq_some_iff.mp hl).1
    -- the coin, the index of the block, and that of the statement
    refine ⟨[if j.backEdge then 0 else 40, k, l], ?_⟩
    unfold jump
    refine Option.bind_eq_some_iff.mpr ⟨(some j, []), ?_, rfl⟩
    unfold chooseJump
    refine Gen.bind_eq_some.mpr ⟨j.backEdge, [k, l], ?_, ?_⟩
    · cases j.backEdge <;> rfl
    · refine Gen.bind_eq_some.mpr ⟨(j.backEdge, some j.block), [l],
        chooseBlock_of_admits hk hadmits, ?_⟩
      have hne : (f.okStms b j.block).isEmpty = false := by
        simpa using List.ne_nil_of_mem hok
      simp only [hne, Bool.false_eq_true, if_false]
      refine Gen.bind_eq_some.mpr ⟨l, [], ?_, Gen.bind_eq_some.mpr ⟨j.otherStm, [], ?_, rfl⟩⟩
      · simp [rndUpto, Nat.mod_eq_of_lt hllt]
      · exact Gen.ofOption_eq_some.mpr ⟨hl, rfl⟩

/-- **A jump is to or from a block of the function that has gone through the
checks.** -/
theorem jump_spec {draws : Tape} {j : Jump} (h : f.jump b draws = some j) :
    j.block ∈ f.blocks ∧ f.goodJumpBlock b j.block j.backEdge = true ∧
      (j.backEdge = false → (f.block b).inArrayLoop = false) := by
  obtain ⟨hmem, hadmits, -⟩ := jump_iff.mp ⟨draws, h⟩
  exact ⟨hmem, hadmits.good, hadmits.notArray⟩

theorem okStms_subset {t : ℕ} (h : t ∈ f.okStms b c) : t ∈ (f.block c).stms :=
  (List.mem_filter.mp h).1

/-- **A jump is to or from a statement of the block drawn.** -/
theorem mem_of_jump {draws : Tape} {j : Jump} (h : f.jump b draws = some j) :
    j.otherStm ∈ (f.block j.block).stms := okStms_subset (jump_iff.mp ⟨draws, h⟩).2.2

/-- **A jump back to another block is let through** where the current block
goes on and the other is not shut to it. -/
theorem admits_back_iff (hf : f.Wf) (hne : c ≠ b) (hok : f.okStms b c ≠ []) :
    f.Admits b c true ↔
      (f.getLastStm b).any (f.mustReturn f.nextStm) = false ∧ ¬ f.Shut b c := by
  obtain ⟨t, ht⟩ := List.exists_mem_of_ne_nil _ hok
  have hgood : f.goodJumpBlock b c true = true ↔ ¬ f.Shut b c := by
    unfold goodJumpBlock Shut
    cases hstms : (f.block c).stms with
    | nil =>
      have hmem := okStms_subset ht
      rw [hstms] at hmem
      cases hmem
    | cons s rest =>
      have hpar := (hf.mem_stms c s (hstms ▸ List.mem_cons_self)).2
      simp [hne, hpar]
  constructor
  · exact fun h => ⟨h.goesOn rfl, hgood.mp h.good⟩
  · rintro ⟨hgoes, hopen⟩
    exact ⟨fun h => absurd h (by decide), fun h => absurd h (by decide), fun _ => hgoes,
      hgood.mpr hopen⟩

/-- **A jump forward from another block is let through** where the current
block has a statement and is not shut to the other. -/
theorem admits_forward_iff (hf : f.Wf) (hne : c ≠ b) (hok : f.okStms b c ≠ []) :
    f.Admits b c false ↔ (f.block b).stms ≠ [] ∧ ¬ f.Shut c b := by
  obtain ⟨t, ht⟩ := List.exists_mem_of_ne_nil _ hok
  have hgood : (f.block b).stms ≠ [] →
      (f.goodJumpBlock b c false = true ↔ f.hasInitSkippedVars c b = false) := by
    intro hb
    unfold goodJumpBlock
    cases hstms : (f.block c).stms with
    | nil =>
      have hmem := okStms_subset ht
      rw [hstms] at hmem
      cases hmem
    | cons s rest =>
      -- a statement that may be chosen is no return, so it is not the only one there
      have hreturn : (rest.isEmpty && f.isReturn s) = false := by
        obtain ⟨hmem, hgoes⟩ := List.mem_filter.mp ht
        have hlt := (hf.mem_stms c t hmem).1
        cases rest with
        | cons s' rest => rfl
        | nil =>
          rw [hstms] at hmem
          obtain rfl := List.mem_singleton.mp hmem
          obtain ⟨n, hn⟩ : ∃ n, f.nextStm = n + 1 := ⟨f.nextStm - 1, by omega⟩
          rw [hn] at hgoes
          unfold mustReturn at hgoes
          unfold isReturn
          cases hk : (f.stm t).kind <;> simp [hk] at hgoes ⊢
      obtain ⟨s', rest', hstms'⟩ := List.exists_cons_of_ne_nil hb
      have hpar := (hf.mem_stms b s' (hstms' ▸ List.mem_cons_self)).2
      have hreturn' : ¬ rest = [] ∨ f.isReturn s = false := by
        simpa [imp_iff_not_or] using hreturn
      simp [hne, hstms', hpar, hreturn']
  unfold Shut
  constructor
  · intro h
    have hb := h.nonempty rfl
    exact ⟨hb, by simp [h.notArray rfl, (hgood hb).mp h.good]⟩
  · rintro ⟨hb, hopen⟩
    simp only [not_or, Bool.not_eq_true] at hopen
    exact ⟨fun _ => hopen.1, fun _ => hb, fun h => absurd h (by decide), (hgood hb).mpr hopen.2⟩

/-! ## Skipped initialisers -/

/-- A block around another is on the way up to a third, or around that one. -/
theorem mem_takeWhile_chain (hp : f.ParentLt) (hd : d ∈ f.chain b) :
    d ∈ (f.chain b).takeWhile (· ≠ c) ∨ d ∈ f.chain c := by
  induction b using Nat.strong_induction_on with
  | _ b ih =>
    by_cases hbc : b = c
    · exact .inr (hbc ▸ hd)
    · cases hpar : (f.block b).parent with
      | none =>
        rw [chain_of_none hpar] at hd ⊢
        rw [List.takeWhile_cons_of_pos (by simpa using hbc)]
        exact .inl (by simpa using hd)
      | some p =>
        rw [chain_of_parent hp hpar] at hd ⊢
        rw [List.takeWhile_cons_of_pos (by simpa using hbc)]
        rcases List.mem_cons.mp hd with rfl | hd
        · exact .inl List.mem_cons_self
        · exact (ih p (hp b p hpar) hd).imp_left (List.mem_cons_of_mem _)

/-- **Where no initialisation is skipped**, the blocks a jump enters declare
nothing; every variable is declared in one block. -/
theorem localVars_of_not_skipped (hp : f.ParentLt)
    (hunique : ∀ c d, ∀ v ∈ (f.block c).localVars, v ∈ (f.block d).localVars → c = d)
    (h : f.hasInitSkippedVars c b = false) (hd : d ∈ f.chain b) (hc : d ∉ f.chain c) :
    (f.block d).localVars = [] := by
  refine List.eq_nil_iff_forall_not_mem.mpr fun v hv => ?_
  have hmem := (mem_takeWhile_chain hp hd).resolve_right hc
  unfold hasInitSkippedVars at h
  rw [List.any_eq_false] at h
  have hkept := h v (List.mem_flatMap.mpr ⟨d, hmem, hv⟩)
  simp only [Bool.or_eq_true, decide_eq_true_eq, Bool.not_eq_true', not_or,
    Bool.not_eq_false] at hkept
  -- it is visible where the jump leaves from, so its block is around there
  have hvisible := hkept.2
  unfold isVisibleLocal at hvisible
  obtain ⟨e, he, hve⟩ := List.any_eq_true.mp hvisible
  obtain rfl := hunique d e v hv (by simpa using hve)
  exact hc he

end Func

end Generate

end CLSmith
