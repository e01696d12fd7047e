import CLSmith.EMI.Reference
import Mathlib.Algebra.BigOperators.Group.Finset.Basic
/-!
# Deleting and lifting on the tables

The blocks of a section as a list of statements the tables hold, and what
`remove_stmt`, `MergeBlock` and `RemoveBreakContinue` make of it in a function
without gotos: the part of `PruneBlock` after its loop.
-/

namespace CLSmith

namespace EMI

open Generate Common

variable {M : Type}

namespace Pruning

variable {σ σ' σ'' : Pruning M} {b c s n : ℕ}

/-- **The tables hold a list of statements**: each is of its kind, and its
blocks have the statements of the list. -/
def Holds (σ : Pruning M) : Stms ℕ ℕ → Prop
  | .nil => True
  | .leaf s rest => nested (σ.kind s) = none ∧ σ.Holds rest
  | .ifElse s t e T E rest =>
    (∃ test, σ.kind s = .ifElse test t e) ∧ σ.stms t = T.roots ∧ σ.stms e = E.roots ∧
      σ.Holds T ∧ σ.Holds E ∧ σ.Holds rest
  | .forLoop s b B rest =>
    (∃ init test incr, σ.kind s = .forLoop init test incr b) ∧ σ.stms b = B.roots ∧
      σ.Holds B ∧ σ.Holds rest

/-- The deleted statements of some blocks. -/
def deletedIn (σ : Pruning M) (Bs : Finset ℕ) : Multiset ℕ := ∑ c ∈ Bs, (σ.deleted c : Multiset ℕ)

/-- **Only the blocks `Bs` have changed.** The kinds of the statements and the parents
of the blocks are as they were everywhere. -/
structure Frame (Bs : List ℕ) (σ σ' : Pruning M) : Prop where
  kind : ∀ s, σ'.kind s = σ.kind s
  parent : ∀ b, (σ'.func.block b).parent = (σ.func.block b).parent
  role : ∀ b, (σ'.func.block b).role = (σ.func.block b).role
  edges : σ'.edges = σ.edges
  stms : ∀ b, b ∉ Bs → σ'.stms b = σ.stms b
  deleted : ∀ b, b ∉ Bs → σ'.deleted b = σ.deleted b

namespace Frame

variable {A B : List ℕ}

theorem refl (A : List ℕ) (σ : Pruning M) : Frame A σ σ :=
  ⟨fun _ => rfl, fun _ => rfl, fun _ => rfl, rfl, fun _ _ => rfl, fun _ _ => rfl⟩

theorem trans (h : Frame A σ σ') (h' : Frame A σ' σ'') : Frame A σ σ'' where
  kind s := (h'.kind s).trans (h.kind s)
  parent b := (h'.parent b).trans (h.parent b)
  role b := (h'.role b).trans (h.role b)
  edges := h'.edges.trans h.edges
  stms b hb := (h'.stms b hb).trans (h.stms b hb)
  deleted b hb := (h'.deleted b hb).trans (h.deleted b hb)

theorem mono (h : Frame A σ σ') (hAB : A ⊆ B) : Frame B σ σ' where
  kind := h.kind
  parent := h.parent
  role := h.role
  edges := h.edges
  stms b hb := h.stms b fun hA => hb (hAB hA)
  deleted b hb := h.deleted b fun hA => hb (hAB hA)

theorem inLoop (h : Frame A σ σ') (b : ℕ) : σ'.inLoop b = σ.inLoop b := by
  have hchain : ∀ n b, σ'.func.chainFrom n b = σ.func.chainFrom n b := by
    intro n
    induction n with
    | zero => exact fun _ => rfl
    | succ n ih =>
      intro b
      unfold Func.chainFrom
      rw [h.parent b]
      cases (σ.func.block b).parent with
      | none => rfl
      | some p => simp only [ih p]
  unfold Pruning.inLoop Func.chain
  rw [hchain]
  simp only [h.role]

end Frame

/-- What the tables hold is a matter of the kinds and of the blocks of the
list. -/
theorem Holds.congr {T : Stms ℕ ℕ} (h : σ.Holds T) (hk : ∀ s, σ'.kind s = σ.kind s)
    (hs : ∀ c ∈ T.blocks, σ'.stms c = σ.stms c) : σ'.Holds T := by
  induction T with
  | nil => trivial
  | leaf s rest ih => exact ⟨(hk s).symm ▸ h.1, ih h.2 hs⟩
  | ifElse s t e T E rest ihT ihE ih =>
    obtain ⟨hkind, ht, he, hT, hE, hrest⟩ := h
    simp only [Stms.blocks, List.mem_append, List.mem_cons] at hs
    refine ⟨hkind.imp fun _ h => (hk s).trans h, (hs t (by simp)).trans ht,
      (hs e (by simp)).trans he, ihT hT fun c hc => hs c (by simp [hc]),
      ihE hE fun c hc => hs c (by simp [hc]), ih hrest fun c hc => hs c (by simp [hc])⟩
  | forLoop s b B rest ihB ih =>
    obtain ⟨⟨i, t, r, hkind⟩, hb, hB, hrest⟩ := h
    simp only [Stms.blocks, List.mem_append, List.mem_cons] at hs
    exact ⟨⟨i, t, r, (hk s).trans hkind⟩, (hs b (by simp)).trans hb,
      ihB hB fun c hc => hs c (by simp [hc]), ih hrest fun c hc => hs c (by simp [hc])⟩

theorem Holds.frame {T : Stms ℕ ℕ} {A : List ℕ} (h : σ.Holds T) (hf : Frame A σ σ')
    (hA : ∀ c ∈ T.blocks, c ∉ A) : σ'.Holds T :=
  h.congr hf.kind fun c hc => hf.stms c (hA c hc)

theorem holds_append {T U : Stms ℕ ℕ} : σ.Holds (T ++ U) ↔ σ.Holds T ∧ σ.Holds U := by
  induction T with
  | nil => exact (and_iff_right trivial).symm
  | leaf s rest ih => simp only [Stms.leaf_append, Holds, ih, and_assoc]
  | ifElse s t e T E rest _ _ ih => simp only [Stms.ifElse_append, Holds, ih, and_assoc]
  | forLoop s b B rest _ ih => simp only [Stms.forLoop_append, Holds, ih, and_assoc]

/-! ## Removing and merging, without gotos -/

theorem eraseStmt_stms (hs : s ∈ σ.stms b) (c : ℕ) :
    (σ.eraseStmt b s).stms c = if c = b then (σ.stms b).erase s else σ.stms c := by
  unfold eraseStmt
  rw [if_pos hs]
  unfold stms
  by_cases hc : c = b
  · subst hc
    simp
  · simp [hc]

theorem eraseStmt_frame (σ : Pruning M) (b s : ℕ) : Frame [b] σ (σ.eraseStmt b s) := by
  unfold eraseStmt
  by_cases hs : s ∈ σ.stms b
  · rw [if_pos hs]
    refine ⟨fun _ => rfl, fun c => ?_, fun c => ?_, rfl, fun c hc => ?_, fun c hc => ?_⟩
    · by_cases hc : c = b
      · subst hc
        simp
      · simp [hc]
    · by_cases hc : c = b
      · subst hc
        simp
      · simp [hc]
    · have hne : c ≠ b := by simpa using hc
      simp [stms, hne]
    · have hne : c ≠ b := by simpa using hc
      simp [hne]
  · rw [if_neg hs]
    exact .refl _ _

theorem eraseStmt_deletedIn {Bs : Finset ℕ} (hs : s ∈ σ.stms b) (hb : b ∈ Bs) :
    (σ.eraseStmt b s).deletedIn Bs = σ.deletedIn Bs + {s} := by
  have hd : (σ.eraseStmt b s).deleted = Function.update σ.deleted b (σ.deleted b ++ [s]) := by
    unfold eraseStmt
    rw [if_pos hs]
  have hrest : ∀ c ∈ Bs.erase b, ((σ.eraseStmt b s).deleted c : Multiset ℕ) = σ.deleted c := by
    intro c hc
    rw [hd, Function.update_of_ne (Finset.ne_of_mem_erase hc)]
  unfold deletedIn
  rw [← Finset.add_sum_erase _ _ hb, ← Finset.add_sum_erase _ _ hb, Finset.sum_congr rfl hrest, hd,
    Function.update_self, ← Multiset.coe_add, Multiset.coe_singleton]
  abel

theorem removeStmt_eq (h : σ.edges = []) : σ.removeStmt n b s = σ.eraseStmt b s := by
  cases σ with
  | mk f d e =>
    obtain rfl : e = [] := h
    rfl

/-- **Statements of a block removed** one after the other. -/
theorem removeStmts_spec {Bs : Finset ℕ} {del : List ℕ} (he : σ.edges = []) (hb : b ∈ Bs)
    (hn : (σ.stms b).Nodup) (hdel : del.Nodup) (hsub : del ⊆ σ.stms b) :
    (σ.removeStmts n b del).stms b = (σ.stms b).filter (fun s => decide (s ∉ del)) ∧
      Frame [b] σ (σ.removeStmts n b del) ∧
      (σ.removeStmts n b del).deletedIn Bs = σ.deletedIn Bs + del := by
  induction del generalizing σ with
  | nil =>
    refine ⟨?_, .refl _ _, ?_⟩
    · rw [List.filter_eq_self.mpr fun s _ => by simp]
      rfl
    · rw [Multiset.coe_nil, add_zero]
      rfl
  | cons s del ih =>
    have hs : s ∈ σ.stms b := hsub List.mem_cons_self
    obtain ⟨hsdel, hdel⟩ := List.nodup_cons.mp hdel
    -- Without edges a removal takes out the statement alone.
    have hunfold : σ.removeStmts n b (s :: del) = (σ.eraseStmt b s).removeStmts n b del := by
      unfold removeStmts
      rw [List.foldl_cons, removeStmt_eq he]
    have hframe := eraseStmt_frame σ b s
    have hstms : (σ.eraseStmt b s).stms b = (σ.stms b).erase s := by
      rw [eraseStmt_stms hs, if_pos rfl]
    have hsub' : del ⊆ (σ.eraseStmt b s).stms b := by
      intro t ht
      have hne : t ≠ s := by
        rintro rfl
        exact hsdel ht
      rw [hstms]
      exact (List.mem_erase_of_ne hne).mpr (hsub (List.mem_cons_of_mem _ ht))
    obtain ⟨h1, h2, h3⟩ := ih (hframe.edges.trans he) (by rw [hstms]; exact hn.erase s) hdel hsub'
    rw [hunfold]
    refine ⟨?_, hframe.trans h2, ?_⟩
    · rw [h1, hstms, hn.erase_eq_filter, List.filter_filter]
      refine List.filter_congr fun t _ => ?_
      by_cases hts : t = s <;> by_cases htd : t ∈ del <;> simp [hts, htd]
    · rw [h3, eraseStmt_deletedIn hs hb, ← Multiset.cons_coe, ← Multiset.singleton_add]
      abel

section Merge

variable {position : ℕ}

theorem mergeBlock_stms (hbc : b ≠ c) (d : ℕ) :
    (σ.mergeBlock position b c).1.stms d = if d = c then []
      else if d = b then (σ.stms b).take position ++ σ.stms c ++ (σ.stms b).drop position
      else σ.stms d := by
  unfold mergeBlock stms
  by_cases hd : d = c
  · subst hd
    simp
  · by_cases hdb : d = b
    · subst hdb
      simp [hd]
    · simp [hd, hdb]

theorem mem_mergeBlock (hbc : b ≠ c) (d t : ℕ) :
    t ∈ (σ.mergeBlock position b c).1.stms d ↔
      d ≠ c ∧ (t ∈ σ.stms d ∨ d = b ∧ t ∈ σ.stms c) := by
  rw [mergeBlock_stms hbc]
  by_cases hdc : d = c
  · simp [hdc]
  · by_cases hdb : d = b
    · subst hdb
      have hsplit : t ∈ σ.stms d ↔ t ∈ (σ.stms d).take position ∨ t ∈ (σ.stms d).drop position := by
        rw [← List.mem_append, List.take_append_drop]
      rw [if_neg hdc, if_pos rfl]
      simp only [List.mem_append, hsplit, ne_eq, hdc, not_false_eq_true, true_and]
      tauto
    · simp [hdc, hdb]

theorem mergeBlock_frame (hbc : b ≠ c) : Frame [b, c] σ (σ.mergeBlock position b c).1 := by
  refine ⟨fun s => ?_, fun d => ?_, fun d => ?_, rfl, fun d hd => ?_, fun d hd => ?_⟩
  · unfold mergeBlock kind
    by_cases hs : s ∈ σ.stms c ++ σ.deleted c <;> simp [hs]
  · unfold mergeBlock
    by_cases hd : d = c
    · subst hd
      simp
    · by_cases hdb : d = b
      · subst hdb
        simp [hd]
      · simp [hd, hdb]
  · unfold mergeBlock
    by_cases hd : d = c
    · subst hd
      simp
    · by_cases hdb : d = b
      · subst hdb
        simp [hd]
      · simp [hd, hdb]
  · simp only [List.mem_cons, List.not_mem_nil, or_false, not_or] at hd
    rw [mergeBlock_stms hbc, if_neg hd.2, if_neg hd.1]
  · simp only [List.mem_cons, List.not_mem_nil, or_false, not_or] at hd
    simp [mergeBlock, hd.1, hd.2]

theorem mergeBlock_deletedIn {Bs : Finset ℕ} (hbc : b ≠ c) (hb : b ∈ Bs) (hc : c ∈ Bs) :
    (σ.mergeBlock position b c).1.deletedIn Bs = σ.deletedIn Bs := by
  have hd : (σ.mergeBlock position b c).1.deleted = Function.update
      (Function.update σ.deleted b (σ.deleted b ++ σ.deleted c)) c [] := rfl
  have hc' : c ∈ Bs.erase b := Finset.mem_erase.mpr ⟨hbc.symm, hc⟩
  have hrest : ∀ d ∈ (Bs.erase b).erase c,
      ((σ.mergeBlock position b c).1.deleted d : Multiset ℕ) = σ.deleted d := by
    intro d hd'
    rw [hd, Function.update_of_ne (Finset.ne_of_mem_erase hd'),
      Function.update_of_ne (Finset.ne_of_mem_erase (Finset.mem_of_mem_erase hd'))]
  unfold deletedIn
  rw [← Finset.add_sum_erase _ _ hb, ← Finset.add_sum_erase _ _ hb, ← Finset.add_sum_erase _ _ hc',
    ← Finset.add_sum_erase _ _ hc', Finset.sum_congr rfl hrest, hd, Function.update_self,
    Function.update_of_ne hbc, Function.update_self, ← Multiset.coe_add, Multiset.coe_nil]
  abel

end Merge

/-! ## Breaks and continues -/

variable {jump : ℕ → Bool} {B R : Stms ℕ ℕ}

theorem roots_dropJumps (h : σ.Holds R) (hjump : ∀ s, jump s = isBreakContinue (σ.kind s)) :
    (dropJumps jump R).roots = R.roots.filter fun s => !jump s := by
  induction R with
  | nil => rfl
  | leaf s rest ih =>
    rw [dropJumps, Stms.roots]
    by_cases hs : jump s = true
    · rw [if_pos hs, List.filter_cons_of_neg (by simp [hs]), ih h.2]
    · rw [if_neg hs, List.filter_cons_of_pos (by simp [hs]), Stms.roots, ih h.2]
  | ifElse s t e T E rest _ _ ih =>
    obtain ⟨⟨test, hkind⟩, -, -, -, -, hrest⟩ := h
    have hs : jump s = false := by rw [hjump, hkind]; rfl
    rw [dropJumps, Stms.roots, Stms.roots, List.filter_cons_of_pos (by simp [hs]), ih hrest]
  | forLoop s b B rest _ ih =>
    obtain ⟨⟨i, t, r, hkind⟩, -, -, hrest⟩ := h
    have hs : jump s = false := by rw [hjump, hkind]; rfl
    rw [dropJumps, Stms.roots, Stms.roots, List.filter_cons_of_pos (by simp [hs]), ih hrest]

/-- **What the walks over a block start from**: `live` are the statements of
the block `c`, and the list `R` those still to come. -/
structure Ready (σ : Pruning M) (jump : ℕ → Bool) (Bs : Finset ℕ) (c : ℕ) (live : List ℕ)
    (R : Stms ℕ ℕ) : Prop where
  jump : ∀ s, jump s = isBreakContinue (σ.kind s)
  edges : σ.edges = []
  stms : σ.stms c = live
  holds : σ.Holds R
  blocks : (c :: R.blocks).Nodup
  ids : R.preorder.Nodup
  sub : ∀ d ∈ c :: R.blocks, d ∈ Bs

namespace Ready

variable {Bs : Finset ℕ} {live A : List ℕ} {T E rest : Stms ℕ ℕ} {t e : ℕ}

/-- The list is as it was where the statements of the block are others. -/
theorem step {live' : List ℕ} (h : Ready σ jump Bs c live R) (hf : Frame A σ σ')
    (hA : List.Disjoint R.blocks A) (hs : σ'.stms c = live') : Ready σ' jump Bs c live' R where
  jump s := (h.jump s).trans (congrArg isBreakContinue (hf.kind s).symm)
  edges := hf.edges.trans h.edges
  stms := hs
  holds := h.holds.frame hf fun _ hd => hA hd
  blocks := h.blocks
  ids := h.ids
  sub := h.sub

theorem frame (h : Ready σ jump Bs c live R) (hf : Frame A σ σ')
    (hA : List.Disjoint (c :: R.blocks) A) : Ready σ' jump Bs c live R :=
  h.step hf (List.disjoint_of_disjoint_cons_left hA)
    ((hf.stms c (hA List.mem_cons_self)).trans h.stms)

theorem append_right {T U : Stms ℕ ℕ} (h : Ready σ jump Bs c live (T ++ U)) :
    Ready σ jump Bs c live U := by
  obtain ⟨hj, he, hs, hholds, hb, hi, hsub⟩ := h
  rw [Stms.blocks_append] at hb hsub
  rw [Stms.preorder_append] at hi
  exact ⟨hj, he, hs, (holds_append.mp hholds).2, by grind, by grind, by grind⟩

theorem leaf (h : Ready σ jump Bs c live (.leaf s rest)) : Ready σ jump Bs c live rest :=
  ⟨h.jump, h.edges, h.stms, h.holds.2, h.blocks, h.ids.of_cons, h.sub⟩

theorem ifElse (h : Ready σ jump Bs c live (.ifElse s t e T E rest)) :
    Ready σ jump Bs t T.roots T ∧ Ready σ jump Bs e E.roots E ∧ Ready σ jump Bs c live rest := by
  obtain ⟨hj, he, hs, ⟨-, ht, hfalse, hT, hE, hrest⟩, hb, hi, hsub⟩ := h
  simp only [Stms.blocks, Stms.preorder] at hb hi hsub
  exact ⟨⟨hj, he, ht, hT, by grind, by grind, by grind⟩,
    ⟨hj, he, hfalse, hE, by grind, by grind, by grind⟩,
    ⟨hj, he, hs, hrest, by grind, by grind, by grind⟩⟩

theorem ifElse_disjoint (h : Ready σ jump Bs c live (.ifElse s t e T E rest)) :
    List.Disjoint (e :: E.blocks) (t :: T.blocks) ∧
      List.Disjoint (c :: rest.blocks) (t :: T.blocks) ∧
      List.Disjoint (c :: rest.blocks) (e :: E.blocks) := by
  have hb := h.blocks
  simp only [Stms.blocks] at hb
  unfold List.Disjoint
  grind

theorem forLoop (h : Ready σ jump Bs c live (.forLoop s b B rest)) :
    Ready σ jump Bs b B.roots B ∧ Ready σ jump Bs c live rest := by
  obtain ⟨hj, he, hs, ⟨-, hbody, hB, hrest⟩, hb, hi, hsub⟩ := h
  simp only [Stms.blocks, Stms.preorder] at hb hi hsub
  exact ⟨⟨hj, he, hbody, hB, by grind, by grind, by grind⟩,
    ⟨hj, he, hs, hrest, by grind, by grind, by grind⟩⟩

theorem forLoop_disjoint (h : Ready σ jump Bs c live (.forLoop s b B rest)) :
    List.Disjoint (c :: rest.blocks) (b :: B.blocks) := by
  have hb := h.blocks
  simp only [Stms.blocks] at hb
  unfold List.Disjoint
  grind

end Ready

@[simp] theorem blocks_dropJumps (jump : ℕ → Bool) (R : Stms ℕ ℕ) :
    (dropJumps jump R).blocks = R.blocks := by
  induction R with
  | nil => rfl
  | leaf s rest ih =>
    rw [dropJumps]
    by_cases hs : jump s = true
    · rw [if_pos hs]
      exact ih
    · rw [if_neg hs]
      exact ih
  | ifElse s t e T E rest ihT ihE ih => simp only [dropJumps, Stms.blocks, ihT, ihE, ih]
  | forLoop s b B rest _ ih => simp only [dropJumps, Stms.blocks, ih]

/-- What `RemoveBreakContinue` does to the block `c` with the statements `B`. -/
structure Cleared (jump : ℕ → Bool) (Bs : Finset ℕ) (c : ℕ) (B : Stms ℕ ℕ)
    (σ σ' : Pruning M) : Prop where
  stms : σ'.stms c = (dropJumps jump B).roots
  holds : σ'.Holds (dropJumps jump B)
  frame : Frame (c :: B.blocks) σ σ'
  deleted : σ'.deletedIn Bs = σ.deletedIn Bs + jumps jump B

section Clear

variable {Bs : Finset ℕ} {live : List ℕ} {clear : ℕ → Pruning M → Option (Pruning M)}

/-- The loop over the statements clears the branches of the ifs. -/
theorem clearBranches_spec
    (hclear : ∀ (σ : Pruning M) c B, Ready σ jump Bs c B.roots B → B.depth < n →
      ∃ σ', clear c σ = some σ' ∧ Cleared jump Bs c B σ σ')
    (h : Ready σ jump Bs c live R) (hn : R.depth ≤ n) :
    ∃ σ', clearBranches clear c live R.roots σ = some σ' ∧ σ'.Holds (dropJumps jump R) ∧
      Frame R.blocks σ σ' ∧
      σ'.deletedIn Bs + (R.roots.filter jump : Multiset ℕ) = σ.deletedIn Bs + jumps jump R := by
  induction R generalizing σ with
  | nil => exact ⟨σ, rfl, trivial, .refl _ _, rfl⟩
  | leaf s rest ih =>
    obtain ⟨σ', hrun, hholds, hframe, hdel⟩ := ih h.leaf hn
    have hkind := h.holds.1
    refine ⟨σ', ?_, ?_, hframe, ?_⟩
    · rw [Stms.roots, clearBranches]
      split
      · next hk =>
        rw [hk] at hkind
        cases hkind
      · exact hrun
    · rw [dropJumps]
      by_cases hs : jump s = true
      · rwa [if_pos hs]
      · rw [if_neg hs]
        exact ⟨(hframe.kind s).symm ▸ hkind, hholds⟩
    · rw [Stms.roots, jumps]
      by_cases hs : jump s = true
      · rw [if_pos hs, List.filter_cons_of_pos hs, ← Multiset.cons_coe, ← Multiset.cons_coe,
          Multiset.add_cons, Multiset.add_cons, hdel]
      · rwa [if_neg hs, List.filter_cons_of_neg hs]
  | ifElse s t e T E rest _ _ ih =>
    rw [Stms.depth] at hn
    obtain ⟨hT, hE, hrest⟩ := h.ifElse
    obtain ⟨hdET, hdrT, hdrE⟩ := h.ifElse_disjoint
    obtain ⟨test, hkind⟩ := h.holds.1
    have hs : jump s = false := by rw [h.jump, hkind]; rfl
    obtain ⟨σ₁, hrun₁, h₁⟩ := hclear σ t T hT (by omega)
    obtain ⟨σ₂, hrun₂, h₂⟩ := hclear σ₁ e E (hE.frame h₁.frame hdET) (by omega)
    have hrest₂ := (hrest.frame h₁.frame hdrT).frame h₂.frame hdrE
    obtain ⟨σ₃, hrun₃, hholds, hframe, hdel⟩ := ih hrest₂ (by omega)
    -- the tree names no block twice, so what comes later leaves the branches as they are
    have hT₂ : ∀ d ∈ t :: T.blocks, σ₂.stms d = σ₁.stms d :=
      fun d hd => h₂.frame.stms d fun hd' => hdET hd' hd
    have hT₃ : ∀ d ∈ t :: T.blocks, σ₃.stms d = σ₂.stms d :=
      fun d hd => hframe.stms d fun hd' => hdrT (List.mem_cons_of_mem _ hd') hd
    have hE₃ : ∀ d ∈ e :: E.blocks, σ₃.stms d = σ₂.stms d :=
      fun d hd => hframe.stms d fun hd' => hdrE (List.mem_cons_of_mem _ hd') hd
    have hframe₂ : Frame (t :: T.blocks ++ e :: E.blocks) σ σ₂ :=
      (h₁.frame.mono (List.subset_append_left _ _)).trans
        (h₂.frame.mono (List.subset_append_right _ _))
    refine ⟨σ₃, ?_, ?_, ?_, ?_⟩
    · have hlive : σ₂.unchanged c live = some () := if_pos hrest₂.stms
      rw [Stms.roots, clearBranches, hkind]
      simp only [hrun₁, hrun₂, hlive, hrun₃, Option.bind_eq_bind, Option.bind_some]
    · refine ⟨⟨test, ((hframe.kind s).trans (hframe₂.kind s)).trans hkind⟩, ?_, ?_, ?_, ?_, hholds⟩
      · rw [hT₃ t List.mem_cons_self, hT₂ t List.mem_cons_self, h₁.stms]
      · rw [hE₃ e List.mem_cons_self, h₂.stms]
      · refine h₁.holds.congr (fun u => (hframe.kind u).trans (h₂.frame.kind u)) fun d hd => ?_
        rw [blocks_dropJumps] at hd
        exact (hT₃ d (List.mem_cons_of_mem _ hd)).trans (hT₂ d (List.mem_cons_of_mem _ hd))
      · refine h₂.holds.congr hframe.kind fun d hd => ?_
        rw [blocks_dropJumps] at hd
        exact hE₃ d (List.mem_cons_of_mem _ hd)
    · refine (hframe₂.mono ?_).trans (hframe.mono ?_)
      · intro d hd
        simp only [Stms.blocks, List.mem_append, List.mem_cons] at hd ⊢
        tauto
      · intro d hd
        simp only [Stms.blocks, List.mem_append, List.mem_cons] at hd ⊢
        tauto
    · rw [Stms.roots, List.filter_cons_of_neg (by simp [hs]), hdel, h₂.deleted, h₁.deleted, jumps,
        ← Multiset.coe_add, ← Multiset.coe_add]
      abel
  | forLoop s b B rest _ ih =>
    -- a loop is passed over: jumps inside it do not leave it
    obtain ⟨-, hrest⟩ := h.forLoop
    obtain ⟨⟨i, t, r, hkind⟩, hb, hB, -⟩ := h.holds
    have hdis := h.forLoop_disjoint
    have hs : jump s = false := by rw [h.jump, hkind]; rfl
    obtain ⟨σ', hrun, hholds, hframe, hdel⟩ := ih hrest (by rw [Stms.depth] at hn; omega)
    have hB' : ∀ d ∈ b :: B.blocks, σ'.stms d = σ.stms d :=
      fun d hd => hframe.stms d fun hd' => hdis (List.mem_cons_of_mem _ hd') hd
    refine ⟨σ', ?_, ?_, hframe.mono ?_, ?_⟩
    · rw [Stms.roots, clearBranches, hkind]
      exact hrun
    · exact ⟨⟨i, t, r, (hframe.kind s).trans hkind⟩, (hB' b List.mem_cons_self).trans hb,
        hB.congr hframe.kind fun d hd => hB' d (List.mem_cons_of_mem _ hd), hholds⟩
    · intro d hd
      simp only [Stms.blocks, List.mem_append, List.mem_cons]
      tauto
    · rwa [Stms.roots, List.filter_cons_of_neg (by simp [hs])]

/-- **`RemoveBreakContinue`** deletes the breaks and continues of the loop. -/
theorem removeBreakContinue_spec {B : Stms ℕ ℕ} (h : Ready σ jump Bs c B.roots B)
    (hn : B.depth < n) :
    ∃ σ', σ.removeBreakContinue n c = some σ' ∧ Cleared jump Bs c B σ σ' := by
  induction n generalizing σ c B with
  | zero => omega
  | succ n ih =>
    obtain ⟨σ₁, hrun, hholds, hframe, hdel⟩ :=
      clearBranches_spec (fun _ _ _ h hn => ih h hn) h (by omega)
    have hc₁ : σ₁.stms c = B.roots :=
      (hframe.stms c (List.nodup_cons.mp h.blocks).1).trans h.stms
    have hroots : B.roots.Nodup := B.roots_sublist.nodup h.ids
    have hfilter : ((σ.stms c).filter fun s => isBreakContinue (σ.kind s)) =
      B.roots.filter jump := by
      rw [h.stms]
      exact List.filter_congr fun s _ => (h.jump s).symm
    have hsub : B.roots.filter jump ⊆ σ₁.stms c := by
      rw [hc₁]
      exact List.filter_sublist.subset
    obtain ⟨hstms, hframe', hdel'⟩ := removeStmts_spec (n := n + 1) (hframe.edges.trans h.edges)
      (h.sub c List.mem_cons_self) (by rw [hc₁]; exact hroots) (hroots.filter jump) hsub
    refine ⟨σ₁.removeStmts (n + 1) c (B.roots.filter jump), ?_, ?_, ?_, ?_, ?_⟩
    · unfold removeBreakContinue
      simp only [h.stms] at hfilter ⊢
      simp only [hrun, hfilter, Option.bind_eq_bind, Option.bind_some]
    · rw [hstms, hc₁, roots_dropJumps h.holds h.jump]
      refine List.filter_congr fun s hs => ?_
      simp [hs]
    · refine hholds.frame hframe' fun d hd => ?_
      rw [blocks_dropJumps] at hd
      have hne : d ≠ c := by
        rintro rfl
        exact (List.nodup_cons.mp h.blocks).1 hd
      simpa using hne
    · exact (hframe.mono (List.subset_cons_self _ _)).trans (hframe'.mono (by simp))
    · rw [hdel', hdel]

end Clear

/-! ## Deciding and settling -/

/-- **Deleting from a list**: `del` are the roots of what goes. What goes takes all
its blocks along, and the rest keeps its order. -/
inductive Drops : Stms ℕ ℕ → List ℕ → Stms ℕ ℕ → Stms ℕ ℕ → Prop
  | nil : Drops .nil [] .nil .nil
  | keep {R del kept gone} (one : Stms ℕ ℕ) (h : Drops R del kept gone) :
    Drops (one ++ R) del (one ++ kept) gone
  | drop {R del kept gone s} (one : Stms ℕ ℕ) (hone : one.roots = [s])
      (h : Drops R del kept gone) : Drops (one ++ R) (s :: del) kept (one ++ gone)

/-- **Lifting from a list**: the statements of the blocks stand in the place
of the compound statement, which is left with empty blocks. -/
inductive Lifts (jump : ℕ → Bool) (inLoop : Bool) :
    Stms ℕ ℕ → List ℕ → Stms ℕ ℕ → Stms ℕ ℕ → Prop
  | nil : Lifts jump inLoop .nil [] .nil .nil
  | keep {R lift kept gone} (one : Stms ℕ ℕ) (h : Lifts jump inLoop R lift kept gone) :
    Lifts jump inLoop (one ++ R) lift (one ++ kept) gone
  | ifElse {R lift kept gone} (s t e : ℕ) (T E : Stms ℕ ℕ)
      (h : Lifts jump inLoop R lift kept gone) :
    Lifts jump inLoop (.ifElse s t e T E R) (s :: lift) (T ++ (E ++ kept))
      (.ifElse s t e .nil .nil gone)
  | forLoop {R lift kept gone} (s b : ℕ) (B : Stms ℕ ℕ) (h : Lifts jump inLoop R lift kept gone) :
    Lifts jump inLoop (.forLoop s b B R) (s :: lift)
      ((if inLoop then B else dropJumps jump B) ++ kept)
      ((if inLoop then .nil else Stms.leaves (jumps jump B)) ++ .forLoop s b .nil gone)

section Settle

variable {Bs : Finset ℕ} {del lift : List ℕ} {kept gone R₁ X Y : Stms ℕ ℕ} {inLoop : Bool}

theorem Drops.roots_gone (h : Drops R del kept gone) : gone.roots = del := by
  induction h with
  | nil => rfl
  | keep one _ ih => exact ih
  | drop one hone _ ih => rw [Stms.roots_append, hone, ih, List.singleton_append]

theorem Drops.del_sublist (h : Drops R del kept gone) : del.Sublist R.roots := by
  induction h with
  | nil => exact List.Sublist.refl _
  | keep one _ ih =>
    rw [Stms.roots_append]
    exact ih.trans (List.sublist_append_right _ _)
  | drop one hone _ ih =>
    rw [Stms.roots_append, hone, List.singleton_append]
    exact ih.cons_cons _

/-- What is left is the list without `del`. -/
theorem Drops.filter (h : Drops R del kept gone) (hn : R.roots.Nodup) :
    R.roots.filter (fun s => decide (s ∉ del)) = kept.roots := by
  induction h with
  | nil => rfl
  | @keep R del kept gone one h ih =>
    rw [Stms.roots_append] at hn ⊢
    rw [Stms.roots_append, List.filter_append, ih hn.of_append_right]
    have hone : one.roots.filter (fun s => decide (s ∉ del)) = one.roots := by
      refine List.filter_eq_self.mpr fun s hs => decide_eq_true fun hdel => ?_
      exact List.disjoint_of_nodup_append hn hs (h.del_sublist.subset hdel)
    rw [hone]
  | @drop R del kept gone s one hone h ih =>
    rw [Stms.roots_append, hone, List.singleton_append] at hn ⊢
    obtain ⟨hs, hn⟩ := List.nodup_cons.mp hn
    rw [List.filter_cons_of_neg (by simp), ← ih hn]
    refine List.filter_congr fun u hu => ?_
    have hne : u ≠ s := by
      rintro rfl
      exact hs hu
    simp [hne]

theorem Drops.weigh {γ : Type} [AddCommMonoid γ] (f g : ℕ → γ) (h : Drops R del kept gone) :
    kept.weigh f g + gone.weigh f g = R.weigh f g := by
  induction h with
  | nil => exact add_zero _
  | keep one _ ih =>
    rw [Stms.weigh_append, Stms.weigh_append, ← ih]
    abel
  | drop one _ _ ih =>
    rw [Stms.weigh_append, Stms.weigh_append, ← ih]
    abel

theorem Drops.holds (h : Drops R del kept gone) (hR : σ.Holds R) :
    σ.Holds kept ∧ σ.Holds gone := by
  induction h with
  | nil => exact ⟨trivial, trivial⟩
  | keep one _ ih =>
    obtain ⟨hone, hR⟩ := holds_append.mp hR
    exact ⟨holds_append.mpr ⟨hone, (ih hR).1⟩, (ih hR).2⟩
  | drop one _ _ ih =>
    obtain ⟨hone, hR⟩ := holds_append.mp hR
    exact ⟨(ih hR).1, holds_append.mpr ⟨hone, (ih hR).2⟩⟩

theorem Lifts.lift_sublist (h : Lifts jump inLoop R lift kept gone) : lift.Sublist R.roots := by
  induction h with
  | nil => exact List.Sublist.refl _
  | keep one _ ih =>
    rw [Stms.roots_append]
    exact ih.trans (List.sublist_append_right _ _)
  | ifElse s t e T E _ ih => exact ih.cons_cons _
  | forLoop s b B _ ih => exact ih.cons_cons _

theorem Lifts.weigh {γ : Type} [AddCommMonoid γ] (f g : ℕ → γ)
    (h : Lifts jump inLoop R lift kept gone) : kept.weigh f g + gone.weigh f g = R.weigh f g := by
  induction h with
  | nil => exact add_zero _
  | keep one _ ih =>
    rw [Stms.weigh_append, Stms.weigh_append, ← ih]
    abel
  | ifElse s t e T E _ ih =>
    simp only [Stms.weigh, Stms.weigh_append, ← ih]
    abel
  | forLoop s b B _ ih =>
    cases inLoop with
    | true =>
      simp only [Stms.weigh, Stms.weigh_append, if_true, Stms.nil_append, ← ih]
      abel
    | false =>
      simp only [Stms.weigh, Stms.weigh_append, Bool.false_eq_true, if_false, Stms.weigh_leaves,
        ← ih, ← weigh_dropJumps f g jump B]
      abel

theorem holds_leaves {l : List ℕ} (h : ∀ s ∈ l, nested (σ.kind s) = none) :
    σ.Holds (Stms.leaves l) := by
  induction l with
  | nil => trivial
  | cons s l ih => exact ⟨h s List.mem_cons_self, ih fun u hu => h u (List.mem_cons_of_mem _ hu)⟩

theorem jump_of_mem_jumps (h : s ∈ jumps jump R) : jump s = true := by
  induction R with
  | nil => cases h
  | leaf u rest ih =>
    rw [jumps] at h
    split at h
    · next hu =>
      rcases List.mem_cons.mp h with rfl | h
      · exact hu
      · exact ih h
    · exact ih h
  | ifElse u t e T E rest ihT ihE ih =>
    rw [jumps, List.mem_append, List.mem_append] at h
    rcases h with (h | h) | h
    · exact ihT h
    · exact ihE h
    · exact ih h
  | forLoop u b B rest _ ih => exact ih h

theorem roots_dropJumps_sublist (jump : ℕ → Bool) (R : Stms ℕ ℕ) :
    (dropJumps jump R).roots.Sublist R.roots := by
  induction R with
  | nil => exact List.Sublist.refl _
  | leaf s rest ih =>
    rw [dropJumps]
    split
    · exact ih.cons s
    · exact ih.cons_cons s
  | ifElse s t e T E rest _ _ ih => exact ih.cons_cons s
  | forLoop s b B rest _ ih => exact ih.cons_cons s

/-- The position comes to the statement it looks for. -/
theorem advance_append {pre l : List ℕ} {position : ℕ} (hs : s ∉ pre)
    (hpos : position ≤ pre.length) : advance (pre ++ s :: l) s position = some pre.length := by
  have hdrop : (pre ++ s :: l).drop position = pre.drop position ++ s :: l :=
    List.drop_append_of_le_length hpos
  have hs' : s ∉ pre.drop position := fun h => hs (List.mem_of_mem_drop h)
  unfold advance
  rw [hdrop, if_pos (by simp), List.idxOf_append_of_notMem hs', List.idxOf_cons_self,
    List.length_drop]
  congr 1
  omega

/-- The statements of `c` go in before the position. -/
theorem mergeBlock_spec {pre l U : List ℕ} (hbc : b ≠ c) (hs : σ.stms b = pre ++ l)
    (hc : σ.stms c = U) :
    ∃ σ', σ.mergeBlock pre.length b c = (σ', (pre ++ U).length) ∧ σ'.stms b = pre ++ U ++ l ∧
      σ'.stms c = [] ∧ Frame [b, c] σ σ' ∧
      ∀ Bs : Finset ℕ, b ∈ Bs → c ∈ Bs → σ'.deletedIn Bs = σ.deletedIn Bs := by
  refine ⟨(σ.mergeBlock pre.length b c).1, Prod.ext rfl ?_, ?_, ?_, mergeBlock_frame hbc,
    fun _ => mergeBlock_deletedIn hbc⟩
  · rw [List.length_append, ← hc]
    rfl
  · rw [mergeBlock_stms hbc, if_neg hbc, if_pos rfl, hs, hc, List.take_left' rfl,
      List.drop_left' rfl]
  · rw [mergeBlock_stms hbc, if_pos rfl]

/-- What is left of a block after a lift, of which `lift` goes. -/
theorem filter_lift {L P Q : List ℕ} (hP : List.Disjoint P (s :: lift)) (hs : s ∉ L)
    (hL : L.filter (fun u => decide (u ∉ lift)) = Q) :
    (P ++ s :: L).filter (fun u => decide (u ∉ s :: lift)) = P ++ Q := by
  have hP' : P.filter (fun u => decide (u ∉ s :: lift)) = P :=
    List.filter_eq_self.mpr fun u hu => decide_eq_true fun h => hP hu h
  rw [List.filter_append, hP', List.filter_cons_of_neg (by simp), ← hL]
  congr 1
  refine List.filter_congr fun u hu => ?_
  have hne : u ≠ s := by
    rintro rfl
    exact hs hu
  simp [hne]

/-- What the loop over `lift_stms` leaves: the block has the statements `L`
after `pre`, still with those lifted among them. -/
structure Lifted (Bs : Finset ℕ) (b : ℕ) (pre lift : List ℕ) (R kept gone : Stms ℕ ℕ)
    (σ σ' : Pruning M) (L : List ℕ) : Prop where
  stms : σ'.stms b = pre ++ L
  sub : L ⊆ R.preorder
  lift_sub : lift ⊆ L
  nodup : L.Nodup
  filter : L.filter (fun s => decide (s ∉ lift)) = kept.roots
  holdsKept : σ'.Holds kept
  holdsGone : σ'.Holds gone
  frame : Frame (b :: R.blocks) σ σ'
  deleted : σ'.deletedIn Bs + lift = σ.deletedIn Bs + gone.roots

theorem nested_of_isBreakContinue {k : Kind M} (h : isBreakContinue k = true) :
    nested k = none := by
  cases k with
  | brk test => rfl
  | cont test => rfl
  | _ => cases h

/-- What the loop does to the body of a `for` before it is merged. -/
theorem clearLoop_spec (inLoop : Bool) {B : Stms ℕ ℕ} (h : Ready σ jump Bs c B.roots B)
    (hn : B.depth < n) :
    ∃ σ', (if inLoop then some σ else σ.removeBreakContinue n c) = some σ' ∧
      σ'.stms c = (if inLoop then B else dropJumps jump B).roots ∧
      σ'.Holds (if inLoop then B else dropJumps jump B) ∧ Frame (c :: B.blocks) σ σ' ∧
      σ'.deletedIn Bs = σ.deletedIn Bs + (if inLoop then [] else jumps jump B : List ℕ) := by
  cases inLoop with
  | true => exact ⟨σ, rfl, h.stms, h.holds, .refl _ _, (add_zero _).symm⟩
  | false =>
    obtain ⟨σ', hrun, hc⟩ := removeBreakContinue_spec h hn
    exact ⟨σ', hrun, hc.stms, hc.holds, hc.frame, hc.deleted⟩

/-- The blocks of an if lifted out of `b` and those that come after it. -/
theorem ifElse_blocks_disjoint {A B C : List ℕ} {t e : ℕ}
    (h : (b :: (A ++ t :: (B ++ e :: C))).Nodup) :
    (List.Disjoint A [b, t, e] ∧ List.Disjoint B [b, t, e] ∧ List.Disjoint C [b, t, e]) ∧
      List.Disjoint (t :: (A ++ e :: B)) (b :: C) := by
  unfold List.Disjoint
  grind

theorem forLoop_blocks_disjoint {A C : List ℕ} (h : (b :: (A ++ c :: C)).Nodup) :
    (List.Disjoint A [b, c] ∧ List.Disjoint C [b, c] ∧ List.Disjoint C (c :: A)) ∧
      List.Disjoint (c :: A) (b :: C) := by
  unfold List.Disjoint
  grind

/-- **The loop over the statements to be lifted.** -/
theorem liftStms_spec {pre : List ℕ} {position : ℕ} (h : Lifts jump inLoop R lift kept gone)
    (hr : Ready σ jump Bs b (pre ++ R.roots) R) (hpos : position ≤ pre.length)
    (hpre : List.Disjoint pre R.preorder) (hn : R.depth ≤ n) :
    ∃ σ' L, liftStms n b inLoop lift position σ = some σ' ∧
      Lifted Bs b pre lift R kept gone σ σ' L := by
  induction h generalizing σ pre position with
  | nil =>
    have hstms := hr.stms
    exact ⟨σ, [], rfl, hstms, List.nil_subset _, List.nil_subset _, List.nodup_nil, rfl, trivial,
      trivial, .refl _ _, rfl⟩
  | @keep R lift kept gone one h ih =>
    have hr' := hr.append_right
    have hb := hr.blocks
    have hi := hr.ids
    rw [Stms.blocks_append] at hb
    rw [Stms.preorder_append] at hi hpre
    rw [Stms.roots_append, ← List.append_assoc] at hr'
    have hpre' : List.Disjoint (pre ++ one.roots) R.preorder := by
      intro u hu hR
      rcases List.mem_append.mp hu with hu | hu
      · exact hpre hu (List.mem_append_right _ hR)
      · exact List.disjoint_of_nodup_append hi (Stms.mem_preorder_of_mem_roots hu) hR
    have hlen : position ≤ (pre ++ one.roots).length := by
      rw [List.length_append]
      omega
    obtain ⟨σ', L, hrun, hL⟩ := ih hr' hlen hpre' (by rw [Stms.depth_append] at hn; omega)
    refine ⟨σ', one.roots ++ L, hrun, ?_, ?_, ?_, ?_, ?_, ?_, hL.holdsGone, hL.frame.mono ?_,
      hL.deleted⟩
    · rw [hL.stms, List.append_assoc]
    · rw [Stms.preorder_append]
      exact List.append_subset.mpr
        ⟨List.Subset.trans one.roots_sublist.subset (List.subset_append_left _ _),
          List.Subset.trans hL.sub (List.subset_append_right _ _)⟩
    · exact List.Subset.trans hL.lift_sub (List.subset_append_right _ _)
    · refine List.nodup_append'.mpr ⟨one.roots_sublist.nodup hi.of_append_left, hL.nodup, ?_⟩
      intro u hu hu'
      exact hpre' (List.mem_append_right _ hu) (hL.sub hu')
    · have hone : one.roots.filter (fun s => decide (s ∉ lift)) = one.roots := by
        refine List.filter_eq_self.mpr fun u hu => decide_eq_true fun hlift => ?_
        exact hpre' (List.mem_append_right _ hu) (hL.sub (hL.lift_sub hlift))
      rw [List.filter_append, hone, hL.filter, Stms.roots_append]
    · refine holds_append.mpr ⟨(holds_append.mp hr.holds).1.frame hL.frame ?_, hL.holdsKept⟩
      grind
    · rw [Stms.blocks_append]
      grind
  | @ifElse R lift kept gone s t e T E h ih =>
    obtain ⟨hT, hE, hrest⟩ := hr.ifElse
    obtain ⟨hdET, hdrT, hdrE⟩ := hr.ifElse_disjoint
    obtain ⟨test, hkind⟩ := hr.holds.1
    have hi := hr.ids
    rw [Stms.preorder] at hi hpre
    have hbt : b ≠ t := by
      rintro rfl
      exact hdrT List.mem_cons_self List.mem_cons_self
    have hbe : b ≠ e := by
      rintro rfl
      exact hdrE List.mem_cons_self List.mem_cons_self
    have hte : t ≠ e := by
      rintro rfl
      exact hdET List.mem_cons_self List.mem_cons_self
    obtain ⟨⟨hdT, hdE, hdR⟩, hdis⟩ := ifElse_blocks_disjoint hr.blocks
    -- the true block is merged, then the false block
    obtain ⟨σ₁, hm₁, hb₁, ht₁, hf₁, hd₁⟩ := mergeBlock_spec hbt hr.stms hT.stms
    have he₁ : σ₁.stms e = E.roots := (hf₁.stms e (by simp [hbe.symm, hte.symm])).trans hE.stms
    obtain ⟨σ₂, hm₂, hb₂, he₂, hf₂, hd₂⟩ := mergeBlock_spec hbe hb₁ he₁
    have ht₂ : σ₂.stms t = [] := (hf₂.stms t (by simp [hbt.symm, hte])).trans ht₁
    have hf : Frame [b, t, e] σ σ₂ := (hf₁.mono (by simp)).trans (hf₂.mono (by simp))
    have hb₂' : σ₂.stms b = (pre ++ T.roots ++ E.roots ++ [s]) ++ R.roots := by
      rw [hb₂, Stms.roots]
      simp only [List.append_assoc, List.cons_append, List.nil_append]
    have hrest₂ := hrest.step hf hdR hb₂'
    have hrootsT := T.roots_sublist.subset
    have hrootsE := E.roots_sublist.subset
    have hpre₂ : List.Disjoint (pre ++ T.roots ++ E.roots ++ [s]) R.preorder := by
      unfold List.Disjoint at hpre ⊢
      grind
    have hpos₂ : (pre ++ T.roots ++ E.roots).length ≤
      (pre ++ T.roots ++ E.roots ++ [s]).length := by
      simp
    obtain ⟨σ₃, L, hrun, hL⟩ := ih hrest₂ hpos₂ hpre₂ (le_trans (le_max_right _ _) hn)
    refine ⟨σ₃, T.roots ++ E.roots ++ s :: L, ?_, ?_, ?_, ?_, ?_, ?_, ?_, ?_, ?_, ?_⟩
    · have hspre : s ∉ pre := fun hs => hpre hs List.mem_cons_self
      have hadv : advance (σ.stms b) s position = some pre.length := by
        rw [hr.stms]
        exact advance_append hspre hpos
      rw [liftStms, hadv, Option.bind_eq_bind, Option.bind_some, hkind]
      simp only [hm₁, hm₂]
      exact hrun
    · rw [hL.stms]
      simp only [List.append_assoc, List.cons_append, List.nil_append]
    · have hsub := hL.sub
      rw [Stms.preorder]
      grind
    · have hsub := hL.lift_sub
      grind
    · have hsub := hL.sub
      have hnd := hL.nodup
      have hTn := T.roots_sublist.nodup
      have hEn := E.roots_sublist.nodup
      grind
    · rw [Stms.roots_append, Stms.roots_append, ← List.append_assoc]
      refine filter_lift ?_ (fun hs => ?_) hL.filter
      · have hsub := hL.sub
        have hlift := hL.lift_sub
        unfold List.Disjoint
        grind
      · have hsR := hL.sub hs
        grind
    · refine holds_append.mpr ⟨?_, holds_append.mpr ⟨?_, hL.holdsKept⟩⟩
      · refine (hT.holds.frame hf fun d hd => hdT hd).frame hL.frame fun d hd => hdis (by grind)
      · refine (hE.holds.frame hf fun d hd => hdE hd).frame hL.frame fun d hd => hdis (by grind)
    · refine ⟨⟨test, ((hL.frame.kind s).trans (hf.kind s)).trans hkind⟩, ?_, ?_, trivial, trivial,
        hL.holdsGone⟩
      · exact (hL.frame.stms t (hdis (by grind))).trans ht₂
      · exact (hL.frame.stms e (hdis (by grind))).trans he₂
    · rw [Stms.blocks]
      exact (hf.mono (by grind)).trans (hL.frame.mono (by grind))
    · have hb : b ∈ Bs := hr.sub b (by simp)
      have hd : σ₂.deletedIn Bs = σ.deletedIn Bs :=
        (hd₂ Bs hb (hE.sub e (by simp))).trans (hd₁ Bs hb (hT.sub t (by simp)))
      rw [Stms.roots, ← Multiset.cons_coe, ← Multiset.cons_coe, Multiset.add_cons,
        Multiset.add_cons, hL.deleted, hd]
  | @forLoop R lift kept gone s c B h ih =>
    obtain ⟨hB, hrest⟩ := hr.forLoop
    obtain ⟨i, cond, incr, hkind⟩ := hr.holds.1
    have hi := hr.ids
    rw [Stms.preorder] at hi hpre
    rw [Stms.depth] at hn
    obtain ⟨⟨hdB, hdR, hdRB⟩, hdis⟩ := forLoop_blocks_disjoint hr.blocks
    have hbc : b ≠ c := by
      rintro rfl
      exact hdis List.mem_cons_self List.mem_cons_self
    obtain ⟨σ₀, hclear, hc₀, hholds₀, hf₀, hd₀⟩ := clearLoop_spec (n := n) inLoop hB (by omega)
    have hb₀ : σ₀.stms b = pre ++ s :: R.roots :=
      (hf₀.stms b fun hb => hdis hb List.mem_cons_self).trans hr.stms
    have hrest₀ := hrest.step hf₀ hdRB hb₀
    obtain ⟨σ₁, hm₁, hb₁, hc₁, hf₁, hd₁⟩ := mergeBlock_spec hbc hb₀ hc₀
    generalize hU : (if inLoop then B else dropJumps jump B) = U at hc₀ hholds₀ hb₁ hm₁ ⊢
    have hUblocks : U.blocks = B.blocks := by
      cases inLoop <;> simp [← hU]
    have hUroots : U.roots ⊆ B.preorder := by
      cases inLoop with
      | true =>
        rw [← hU]
        exact B.roots_sublist.subset
      | false =>
        rw [← hU]
        exact ((roots_dropJumps_sublist jump B).trans B.roots_sublist).subset
    have hUn : B.preorder.Nodup → U.roots.Nodup := by
      intro hn
      cases inLoop with
      | true =>
        rw [← hU]
        exact B.roots_sublist.nodup hn
      | false =>
        rw [← hU]
        exact ((roots_dropJumps_sublist jump B).trans B.roots_sublist).nodup hn
    have hb₁' : σ₁.stms b = (pre ++ U.roots ++ [s]) ++ R.roots := by
      rw [hb₁]
      simp only [List.append_assoc, List.cons_append, List.nil_append]
    have hrest₁ := hrest₀.step hf₁ hdR hb₁'
    have hpre₁ : List.Disjoint (pre ++ U.roots ++ [s]) R.preorder := by
      unfold List.Disjoint at hpre ⊢
      grind
    have hpos₁ : (pre ++ U.roots).length ≤ (pre ++ U.roots ++ [s]).length := by simp
    obtain ⟨σ₂, L, hrun, hL⟩ := ih hrest₁ hpos₁ hpre₁ (by omega)
    have hf : Frame (c :: B.blocks ++ [b]) σ σ₁ :=
      (hf₀.mono (by simp)).trans (hf₁.mono (by simp))
    refine ⟨σ₂, U.roots ++ s :: L, ?_, ?_, ?_, ?_, ?_, ?_, ?_, ?_, ?_, ?_⟩
    · have hspre : s ∉ pre := fun hs => hpre hs List.mem_cons_self
      have hadv : advance (σ.stms b) s position = some pre.length := by
        rw [hr.stms]
        exact advance_append hspre hpos
      have hlive : σ₀.unchanged b (σ.stms b) = some () := if_pos (hb₀.trans hr.stms.symm)
      rw [liftStms, hadv, Option.bind_eq_bind, Option.bind_some, hkind]
      simp only [hclear, hlive, Option.bind_eq_bind, Option.bind_some, hm₁]
      exact hrun
    · rw [hL.stms]
      simp only [List.append_assoc, List.cons_append, List.nil_append]
    · have hsub := hL.sub
      rw [Stms.preorder]
      grind
    · have hsub := hL.lift_sub
      grind
    · have hsub := hL.sub
      have hnd := hL.nodup
      grind
    · rw [Stms.roots_append]
      refine filter_lift ?_ (fun hs => ?_) hL.filter
      · have hsub := hL.sub
        have hlift := hL.lift_sub
        unfold List.Disjoint
        grind
      · have hsR := hL.sub hs
        grind
    · refine holds_append.mpr ⟨?_, hL.holdsKept⟩
      refine (hholds₀.frame hf₁ fun d hd => hdB (hUblocks ▸ hd)).frame hL.frame fun d hd =>
        hdis (by grind)
    · refine holds_append.mpr ⟨?_, ⟨i, cond, incr,
        ((hL.frame.kind s).trans (hf.kind s)).trans hkind⟩,
        ?_, trivial, hL.holdsGone⟩
      · cases inLoop with
        | true => trivial
        | false =>
          refine holds_leaves fun u hu => ?_
          have hju := jump_of_mem_jumps hu
          rw [hr.jump] at hju
          rw [hL.frame.kind, hf.kind]
          exact nested_of_isBreakContinue hju
      · exact (hL.frame.stms c (hdis List.mem_cons_self)).trans hc₁
    · rw [Stms.blocks]
      exact (hf.mono (by grind)).trans (hL.frame.mono (by grind))
    · have hb : b ∈ Bs := hr.sub b (by simp)
      have hd := hd₁ Bs hb (hB.sub c (by simp))
      rw [Stms.roots_append, Stms.roots, ← Multiset.coe_add, ← Multiset.cons_coe,
        ← Multiset.cons_coe, Multiset.add_cons, Multiset.add_cons, hL.deleted, hd, hd₀,
        Multiset.add_cons]
      cases inLoop with
      | true =>
        simp only [if_true, Stms.roots, Multiset.coe_nil, zero_add, add_zero]
      | false =>
        simp only [Bool.false_eq_true, if_false, Stms.roots_leaves, add_assoc]

/-- What the rest of `PruneBlock` leaves of the statements `R` of `b`. -/
structure Settled (Bs : Finset ℕ) (b : ℕ) (R kept X Y : Stms ℕ ℕ) (σ σ' : Pruning M) : Prop where
  stms : σ'.stms b = kept.roots
  holdsKept : σ'.Holds kept
  holdsDropped : σ'.Holds X
  holdsLifted : σ'.Holds Y
  frame : Frame (b :: R.blocks) σ σ'
  deleted : σ'.deletedIn Bs = σ.deletedIn Bs + X.roots + Y.roots

/-- **Deleting, lifting and removing what was lifted.** -/
theorem settle_spec (hdrop : Drops R del R₁ X) (hlift : Lifts jump (σ.inLoop b) R₁ lift kept Y)
    (hr : Ready σ jump Bs b R.roots R) (hd₁ : R₁.depth ≤ n) :
    ∃ σ', σ.settle n b del lift = some σ' ∧ Settled Bs b R kept X Y σ σ' := by
  have hb : b ∈ Bs := hr.sub b List.mem_cons_self
  have hroots : R.roots.Nodup := R.roots_sublist.nodup hr.ids
  have hblocks : (R₁.blocks ++ X.blocks).Perm R.blocks := by
    rw [← Multiset.coe_eq_coe, ← Multiset.coe_add, Stms.coe_blocks, Stms.coe_blocks,
      Stms.coe_blocks, hdrop.weigh]
  have hids : (R₁.preorder ++ X.preorder).Perm R.preorder := by
    rw [← Multiset.coe_eq_coe, ← Multiset.coe_add, Stms.coe_preorder, Stms.coe_preorder,
      Stms.coe_preorder, hdrop.weigh]
  have hbn := hr.blocks
  have hnodup : (b :: (R₁.blocks ++ X.blocks)).Nodup := (hblocks.cons b).nodup_iff.mpr hbn
  -- the statements to be deleted
  obtain ⟨hs₁, hf₁, hdel₁⟩ := removeStmts_spec (n := n) hr.edges hb (by rw [hr.stms]; exact hroots)
    (hdrop.del_sublist.nodup hroots) (by rw [hr.stms]; exact hdrop.del_sublist.subset)
  rw [hr.stms, hdrop.filter hroots] at hs₁
  have hr₁ : Ready (σ.removeStmts n b del) jump Bs b ([] ++ R₁.roots) R₁ := by
    refine ⟨fun s => (hr.jump s).trans (congrArg isBreakContinue (hf₁.kind s).symm),
      hf₁.edges.trans hr.edges, hs₁, (hdrop.holds hr.holds).1.frame hf₁ ?_, ?_, ?_, ?_⟩
    · grind
    · grind
    · exact (List.sublist_append_left _ _).nodup (hids.nodup_iff.mpr hr.ids)
    · have hsub := hr.sub
      have hmem : ∀ d ∈ R₁.blocks, d ∈ R.blocks := fun d hd =>
        hblocks.subset (List.mem_append_left _ hd)
      grind
  -- those to be lifted
  have hlift' := hlift
  rw [← hf₁.inLoop b] at hlift'
  obtain ⟨σ₂, L, hrun, hL⟩ := liftStms_spec hlift' hr₁ (Nat.zero_le _)
    (List.disjoint_nil_left _) hd₁
  have hs₂ : σ₂.stms b = L := hL.stms
  obtain ⟨hs₃, hf₃, hdel₃⟩ := removeStmts_spec (n := n) (hL.frame.edges.trans hr₁.edges) hb
    (by rw [hs₂]; exact hL.nodup)
    (hlift.lift_sublist.nodup (R₁.roots_sublist.nodup hr₁.ids)) (by rw [hs₂]; exact hL.lift_sub)
  have hbkept : ∀ d ∈ kept.blocks ++ Y.blocks, d ≠ b := by
    have hperm : (kept.blocks ++ Y.blocks).Perm R₁.blocks := by
      rw [← Multiset.coe_eq_coe, ← Multiset.coe_add, Stms.coe_blocks, Stms.coe_blocks,
        Stms.coe_blocks, hlift.weigh]
    intro d hd
    have hd' := hperm.subset hd
    grind
  refine ⟨σ₂.removeStmts n b lift, ?_, ?_, ?_, ?_, ?_, ?_, ?_⟩
  · unfold settle
    simp only [hrun, Option.bind_eq_bind, Option.bind_some]
  · rw [hs₃, hs₂, hL.filter]
  · exact hL.holdsKept.frame hf₃ fun d hd => by simpa using hbkept d (List.mem_append_left _ hd)
  · have hX : ∀ d ∈ X.blocks, d ∉ b :: R₁.blocks := by grind
    refine (((hdrop.holds hr.holds).2.frame hf₁ fun d hd => ?_).frame hL.frame hX).frame hf₃
      fun d hd => ?_
    · grind
    · grind
  · exact hL.holdsGone.frame hf₃ fun d hd => by simpa using hbkept d (List.mem_append_right _ hd)
  · have hmem : ∀ d ∈ R₁.blocks, d ∈ R.blocks := fun d hd =>
      hblocks.subset (List.mem_append_left _ hd)
    exact ((hf₁.mono (by simp)).trans (hL.frame.mono (by grind))).trans (hf₃.mono (by simp))
  · rw [hdel₃, hL.deleted, hdel₁, hdrop.roots_gone]

end Settle

end Pruning

end EMI

end CLSmith
