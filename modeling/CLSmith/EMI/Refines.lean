import CLSmith.EMI.Settle
import CLSmith.Goto.Wellformed
/-!
# Pruning matches its recursion

`PruneBlock` on the tables of a function without gotos, in step with the
recursion on the list of statements they hold: the same coins, the same
statements kept and the same deleted.
-/

namespace CLSmith

namespace EMI

open Generate Common

variable {M : Type}

namespace Pruning

variable {σ σ' : Pruning M} {b c s n : ℕ} {jump : ℕ → Bool} {Bs : Finset ℕ} {p : Probs}
  {inLoop : Bool} {live del lift : List ℕ} {R T E B kept gone : Stms ℕ ℕ}

/-- Whether the blocks of a list are in a loop. -/
def Loops (σ : Pruning M) : Bool → Stms ℕ ℕ → Prop
  | _, .nil => True
  | l, .leaf _ rest => σ.Loops l rest
  | l, .ifElse _ t e T E rest =>
    σ.inLoop t = l ∧ σ.inLoop e = l ∧ σ.Loops l T ∧ σ.Loops l E ∧ σ.Loops l rest
  | l, .forLoop _ b B rest => σ.inLoop b = true ∧ σ.Loops true B ∧ σ.Loops l rest

theorem Loops.frame {A : List ℕ} (h : σ.Loops inLoop R) (hf : Frame A σ σ') :
    σ'.Loops inLoop R := by
  induction R generalizing inLoop with
  | nil => trivial
  | leaf s rest ih => exact ih h
  | ifElse s t e T E rest ihT ihE ih =>
    exact ⟨(hf.inLoop t).trans h.1, (hf.inLoop e).trans h.2.1, ihT h.2.2.1, ihE h.2.2.2.1,
      ih h.2.2.2.2⟩
  | forLoop s b B rest ihB ih => exact ⟨(hf.inLoop b).trans h.1, ihB h.2.1, ih h.2.2⟩

/-- **A block pruned as the recursion says.** Its statements are what is kept, and
what is deleted is in the lists of deleted statements, each as often as it goes. -/
structure PrunedTo (Bs : Finset ℕ) (b : ℕ) (T kept gone : Stms ℕ ℕ) (σ σ' : Pruning M) :
    Prop where
  stms : σ'.stms b = kept.roots
  holdsKept : σ'.Holds kept
  holdsGone : σ'.Holds gone
  frame : Frame (b :: T.blocks) σ σ'
  deleted : σ'.deletedIn Bs = σ.deletedIn Bs + gone.roots

/-- **What the loop of `PruneBlock` has decided** about the statements `R`:
their blocks are pruned, `G` is what that has deleted, `X` is to be deleted
and `Y` is what lifting will delete. -/
structure Decided (jump : ℕ → Bool) (Bs : Finset ℕ) (inLoop : Bool) (R kept gone : Stms ℕ ℕ)
    (del lift : List ℕ) (σ σ' : Pruning M) (R' R₁ G X Y : Stms ℕ ℕ) : Prop where
  roots : R'.roots = R.roots
  drops : Drops R' del R₁ X
  lifts : Lifts jump inLoop R₁ lift kept Y
  holds : σ'.Holds R'
  holdsGone : σ'.Holds G
  gone_iff : ∀ τ : Pruning M, τ.Holds gone ↔ τ.Holds G ∧ τ.Holds X ∧ τ.Holds Y
  gone_roots : (gone.roots : Multiset ℕ) = G.roots + X.roots + Y.roots
  frame : Frame R.blocks σ σ'
  deleted : σ'.deletedIn Bs = σ.deletedIn Bs + G.roots
  weigh : ∀ {γ : Type} [AddCommMonoid γ] (f g : ℕ → γ),
    R'.weigh f g + G.weigh f g = R.weigh f g
  depth : R₁.depth ≤ R.depth

/-- **One statement walked**: `P` is what it was, `one` what pruning its blocks
has left of it and `G` what that has deleted. -/
structure Walked (Bs : Finset ℕ) (s : ℕ) (P one G : Stms ℕ ℕ) (σ σ' : Pruning M) : Prop where
  rootsP : P.roots = [s]
  rootsOne : one.roots = [s]
  holds : σ'.Holds one
  holdsGone : σ'.Holds G
  frame : Frame P.blocks σ σ'
  deleted : σ'.deletedIn Bs = σ.deletedIn Bs + G.roots
  weigh : ∀ {γ : Type} [AddCommMonoid γ] (f g : ℕ → γ),
    one.weigh f g + G.weigh f g = P.weigh f g
  depth : one.depth ≤ P.depth

section Step

variable {P one G R' R₁ G' X Y rest : Stms ℕ ℕ} {σ₁ σ₂ : Pruning M}

theorem Walked.leaf (s : ℕ) (h : nested (σ.kind s) = none) :
    Walked Bs s (.leaf s .nil) (.leaf s .nil) .nil σ σ :=
  ⟨rfl, rfl, ⟨h, trivial⟩, trivial, .refl _ _, (add_zero _).symm, fun _ _ => add_zero _,
    Nat.le_refl _⟩

/-- What walking the first statement has left still stands after the others. -/
theorem Walked.after (h : Walked Bs s P one G σ σ₁) (hf : Frame rest.blocks σ₁ σ₂)
    (hdis : List.Disjoint P.blocks rest.blocks) : σ₂.Holds one ∧ σ₂.Holds G := by
  have hperm : (one.blocks ++ G.blocks).Perm P.blocks := by
    rw [← Multiset.coe_eq_coe, ← Multiset.coe_add, Stms.coe_blocks, Stms.coe_blocks,
      Stms.coe_blocks, h.weigh]
  exact ⟨h.holds.frame hf fun d hd => hdis (hperm.subset (List.mem_append_left _ hd)),
    h.holdsGone.frame hf fun d hd => hdis (hperm.subset (List.mem_append_right _ hd))⟩

/-- The first statement is deleted. -/
theorem Decided.delete (hw : Walked Bs s P one G σ σ₁)
    (hd : Decided jump Bs inLoop rest kept gone del lift σ₁ σ₂ R' R₁ G' X Y)
    (hdis : List.Disjoint P.blocks rest.blocks) :
    Decided jump Bs inLoop (P ++ rest) kept (one ++ (G ++ gone)) (s :: del) lift σ σ₂
      (one ++ R') R₁ (G ++ G') (one ++ X) Y := by
  obtain ⟨hone, hG⟩ := hw.after hd.frame hdis
  refine ⟨?_, hd.drops.drop one hw.rootsOne, hd.lifts, holds_append.mpr ⟨hone, hd.holds⟩,
    holds_append.mpr ⟨hG, hd.holdsGone⟩, fun τ => ?_, ?_, ?_, ?_, fun f g => ?_, ?_⟩
  · rw [Stms.roots_append, Stms.roots_append, hw.rootsP, hw.rootsOne, hd.roots]
  · simp only [holds_append, hd.gone_iff τ]
    tauto
  · simp only [Stms.roots_append, ← Multiset.coe_add, hd.gone_roots]
    abel
  · rw [Stms.blocks_append]
    exact (hw.frame.mono (by simp)).trans (hd.frame.mono (by simp))
  · rw [hd.deleted, hw.deleted, Stms.roots_append, ← Multiset.coe_add, add_assoc]
  · simp only [Stms.weigh_append, ← hw.weigh f g, ← hd.weigh f g]
    abel
  · rw [Stms.depth_append]
    exact le_trans hd.depth (le_max_right _ _)

/-- The first statement is kept. -/
theorem Decided.keep (hw : Walked Bs s P one G σ σ₁)
    (hd : Decided jump Bs inLoop rest kept gone del lift σ₁ σ₂ R' R₁ G' X Y)
    (hdis : List.Disjoint P.blocks rest.blocks) :
    Decided jump Bs inLoop (P ++ rest) (one ++ kept) (G ++ gone) del lift σ σ₂
      (one ++ R') (one ++ R₁) (G ++ G') X Y := by
  obtain ⟨hone, hG⟩ := hw.after hd.frame hdis
  refine ⟨?_, hd.drops.keep one, hd.lifts.keep one, holds_append.mpr ⟨hone, hd.holds⟩,
    holds_append.mpr ⟨hG, hd.holdsGone⟩, fun τ => ?_, ?_, ?_, ?_, fun f g => ?_, ?_⟩
  · rw [Stms.roots_append, Stms.roots_append, hw.rootsP, hw.rootsOne, hd.roots]
  · simp only [holds_append, hd.gone_iff τ, and_assoc]
  · simp only [Stms.roots_append, ← Multiset.coe_add, hd.gone_roots]
    abel
  · rw [Stms.blocks_append]
    exact (hw.frame.mono (by simp)).trans (hd.frame.mono (by simp))
  · rw [hd.deleted, hw.deleted, Stms.roots_append, ← Multiset.coe_add, add_assoc]
  · simp only [Stms.weigh_append, ← hw.weigh f g, ← hd.weigh f g]
    abel
  · rw [Stms.depth_append, Stms.depth_append]
    exact max_le_max hw.depth hd.depth

/-- The first statement is lifted, which leaves `Z` of it. -/
theorem Decided.lifted {Z kept' : Stms ℕ ℕ} (hw : Walked Bs s P one G σ σ₁)
    (hd : Decided jump Bs inLoop rest kept gone del lift σ₁ σ₂ R' R₁ G' X Y)
    (hdis : List.Disjoint P.blocks rest.blocks)
    (hlift : Lifts jump inLoop (one ++ R₁) (s :: lift) kept' (Z ++ Y)) :
    Decided jump Bs inLoop (P ++ rest) kept' (Z ++ (G ++ gone)) del (s :: lift) σ σ₂
      (one ++ R') (one ++ R₁) (G ++ G') X (Z ++ Y) := by
  obtain ⟨hone, hG⟩ := hw.after hd.frame hdis
  refine ⟨?_, hd.drops.keep one, hlift, holds_append.mpr ⟨hone, hd.holds⟩,
    holds_append.mpr ⟨hG, hd.holdsGone⟩, fun τ => ?_, ?_, ?_, ?_, fun f g => ?_, ?_⟩
  · rw [Stms.roots_append, Stms.roots_append, hw.rootsP, hw.rootsOne, hd.roots]
  · simp only [holds_append, hd.gone_iff τ]
    tauto
  · simp only [Stms.roots_append, ← Multiset.coe_add, hd.gone_roots]
    abel
  · rw [Stms.blocks_append]
    exact (hw.frame.mono (by simp)).trans (hd.frame.mono (by simp))
  · rw [hd.deleted, hw.deleted, Stms.roots_append, ← Multiset.coe_add, add_assoc]
  · simp only [Stms.weigh_append, ← hw.weigh f g, ← hd.weigh f g]
    abel
  · rw [Stms.depth_append, Stms.depth_append]
    exact max_le_max hw.depth hd.depth

theorem Walked.ifElse {T' E' goneT goneE : Stms ℕ ℕ} {t e : ℕ}
    (hr : Ready σ jump Bs c live (.ifElse s t e T E rest))
    (hT : PrunedTo Bs t T T' goneT σ σ₁) (hE : PrunedTo Bs e E E' goneE σ₁ σ₂)
    (hsT : Split jump inLoop T T' goneT) (hsE : Split jump inLoop E E' goneE) :
    Walked Bs s (.ifElse s t e T E .nil) (.ifElse s t e T' E' .nil) (goneT ++ goneE) σ σ₂ := by
  obtain ⟨hdET, -, -⟩ := hr.ifElse_disjoint
  obtain ⟨test, hkind⟩ := hr.holds.1
  have hblocks : (T'.blocks ++ goneT.blocks).Perm T.blocks := by
    rw [← Multiset.coe_eq_coe, ← Multiset.coe_add, Stms.coe_blocks, Stms.coe_blocks,
      Stms.coe_blocks, hsT.weigh]
  -- pruning the false block leaves the true block alone
  have hT' : ∀ d ∈ T'.blocks ++ goneT.blocks, d ∉ e :: E.blocks := fun d hd hd' =>
    hdET hd' (List.mem_cons_of_mem _ (hblocks.subset hd))
  have ht : t ∉ e :: E.blocks := fun hd => hdET hd List.mem_cons_self
  refine ⟨rfl, rfl, ⟨⟨test, ?_⟩, ?_, hE.stms, ?_, hE.holdsKept, trivial⟩,
    holds_append.mpr ⟨?_, hE.holdsGone⟩, ?_, ?_, fun f g => ?_, ?_⟩
  · exact ((hE.frame.kind s).trans (hT.frame.kind s)).trans hkind
  · exact (hE.frame.stms t ht).trans hT.stms
  · exact hT.holdsKept.frame hE.frame fun d hd => hT' d (List.mem_append_left _ hd)
  · exact hT.holdsGone.frame hE.frame fun d hd => hT' d (List.mem_append_right _ hd)
  · refine (hT.frame.mono ?_).trans (hE.frame.mono ?_)
    · simp only [Stms.blocks]
      grind
    · simp only [Stms.blocks]
      grind
  · rw [hE.deleted, hT.deleted, Stms.roots_append, ← Multiset.coe_add, add_assoc]
  · simp only [Stms.weigh, Stms.weigh_append, ← hsT.weigh f g, ← hsE.weigh f g]
    abel
  · have hd := hsT.depth
    have hd' := hsE.depth
    simp only [Stms.depth]
    omega

theorem Walked.forLoop {B' goneB : Stms ℕ ℕ}
    (hr : Ready σ jump Bs c live (.forLoop s b B rest)) (hB : PrunedTo Bs b B B' goneB σ σ₁)
    (hs : Split jump true B B' goneB) :
    Walked Bs s (.forLoop s b B .nil) (.forLoop s b B' .nil) goneB σ σ₁ := by
  obtain ⟨i, t, r, hkind⟩ := hr.holds.1
  refine ⟨rfl, rfl, ⟨⟨i, t, r, (hB.frame.kind s).trans hkind⟩, hB.stms, hB.holdsKept, trivial⟩,
    hB.holdsGone, ?_, hB.deleted, fun f g => ?_, ?_⟩
  · refine hB.frame.mono ?_
    simp only [Stms.blocks]
    grind
  · simp only [Stms.weigh, ← hs.weigh f g]
    abel
  · have hd := hs.depth
    simp only [Stms.depth]
    omega

end Step

section Decided

variable {R' R₁ G X Y : Stms ℕ ℕ}

theorem Decided.blocks (hd : Decided jump Bs inLoop R kept gone del lift σ σ' R' R₁ G X Y) :
    (R'.blocks ++ G.blocks).Perm R.blocks := by
  rw [← Multiset.coe_eq_coe, ← Multiset.coe_add, Stms.coe_blocks, Stms.coe_blocks,
    Stms.coe_blocks, hd.weigh]

theorem Decided.preorder (hd : Decided jump Bs inLoop R kept gone del lift σ σ' R' R₁ G X Y) :
    (R'.preorder ++ G.preorder).Perm R.preorder := by
  rw [← Multiset.coe_eq_coe, ← Multiset.coe_add, Stms.coe_preorder, Stms.coe_preorder,
    Stms.coe_preorder, hd.weigh]

/-- The statements of the block, after their own blocks are pruned. -/
theorem Decided.ready (hd : Decided jump Bs inLoop R kept gone del lift σ σ' R' R₁ G X Y)
    (h : Ready σ jump Bs b R.roots R) : Ready σ' jump Bs b R'.roots R' := by
  have hb := h.blocks
  have hn := (hd.blocks.cons b).nodup_iff.mpr hb
  have hstms : σ'.stms b = R'.roots := by
    rw [hd.roots, ← h.stms]
    exact hd.frame.stms b (List.nodup_cons.mp hb).1
  refine ⟨fun s => (h.jump s).trans (congrArg isBreakContinue (hd.frame.kind s).symm),
    hd.frame.edges.trans h.edges, hstms, hd.holds, by grind,
    (List.sublist_append_left _ _).nodup (hd.preorder.nodup_iff.mpr h.ids), ?_⟩
  intro d hd'
  have hsub : ∀ d ∈ R'.blocks, d ∈ R.blocks := fun d hd' =>
    hd.blocks.subset (List.mem_append_left _ hd')
  exact h.sub d (by grind)

end Decided

/-- **The loop of `PruneBlock`** draws as the recursion does and decides the
same, where the pruning of the nested blocks does. -/
theorem visitStms_sim {pr : ℕ → Pruning M → Gen (Pruning M)}
    (hpr : ∀ (σ : Pruning M) c U l, Ready σ jump Bs c U.roots U → σ.inLoop c = l → σ.Loops l U →
      U.depth < n →
      Gen.Sim (fun σ' r => PrunedTo Bs c U r.1 r.2 σ σ') (pr c σ) (prune p jump l U))
    (h : Ready σ jump Bs c live R) (hl : σ.Loops inLoop R) (hn : R.depth ≤ n) :
    Gen.Sim (fun x r => ∃ R' R₁ G X Y,
        Decided jump Bs inLoop R r.1 r.2 x.2.1 x.2.2 σ x.1 R' R₁ G X Y)
      (visitStms p pr c live R.roots σ) (prune p jump inLoop R) := by
  induction R generalizing σ with
  | nil =>
    refine .pure ⟨.nil, .nil, .nil, .nil, .nil, ?_⟩
    exact ⟨rfl, .nil, .nil, trivial, trivial, fun _ => by simp [Holds], rfl, .refl _ _,
      (add_zero _).symm, fun _ _ => add_zero _, Nat.le_refl _⟩
  | leaf s rest ih =>
    have hkind := h.holds.1
    rw [Stms.roots, visitStms, hkind, prune]
    refine (Gen.Sim.refl _).bind ?_
    rintro doLeaf _ rfl
    refine (ih h.leaf hl hn).bind ?_
    rintro ⟨σ₁, del, lift⟩ ⟨kept, gone⟩ ⟨R', R₁, G, X, Y, hd⟩
    refine .pure ?_
    have hw : Walked Bs s (.leaf s .nil) (.leaf s .nil) .nil σ σ := .leaf s hkind
    have hdis : List.Disjoint (Stms.leaf s .nil : Stms ℕ ℕ).blocks rest.blocks :=
      List.disjoint_nil_left _
    -- only the coin decides about a leaf, which has nothing nested to be pruned
    cases doLeaf with
    | true => exact ⟨_, _, _, _, _, hd.delete hw hdis⟩
    | false => exact ⟨_, _, _, _, _, hd.keep hw hdis⟩
  | ifElse s t e T E rest _ _ ih =>
    rw [Stms.depth] at hn
    obtain ⟨test, hkind⟩ := h.holds.1
    obtain ⟨hlt, hle, hlT, hlE, hlrest⟩ := hl
    obtain ⟨hT, hE, hrest⟩ := h.ifElse
    obtain ⟨hdET, hdrT, hdrE⟩ := h.ifElse_disjoint
    have hnested : nested (σ.kind s) = some [t, e] := by rw [hkind]; rfl
    rw [Stms.roots, visitStms, hnested, prune]
    simp only [List.foldlM_cons, List.foldlM_nil, bind_assoc, pure_bind]
    -- the nested blocks come first, as in `PruneBlock`: the true branch, then the false one
    refine ((hpr σ t T inLoop hT hlt hlT (by omega)).and_right
      fun _ _ _ => prune_split).bind ?_
    rintro σ₁ ⟨T', goneT⟩ ⟨hPT, hsT⟩
    refine ((hpr σ₁ e E inLoop (hE.frame hPT.frame hdET) ((hPT.frame.inLoop e).trans hle)
      (hlE.frame hPT.frame) (by omega)).and_right fun _ _ _ => prune_split).bind ?_
    rintro σ₂ ⟨E', goneE⟩ ⟨hPE, hsE⟩
    have hw := Walked.ifElse h hPT hPE hsT hsE
    have hrest₂ := (hrest.frame hPT.frame hdrT).frame hPE.frame hdrE
    have hdis : List.Disjoint (Stms.ifElse s t e T E .nil).blocks rest.blocks := by
      have hb := h.blocks
      simp only [Stms.blocks] at hb ⊢
      unfold List.Disjoint
      grind
    refine Gen.Sim.ofOption_bind (if_pos hrest₂.stms) ?_
    refine (Gen.Sim.refl _).bind ?_
    rintro doCompound _ rfl
    refine (Gen.Sim.refl _).bind ?_
    rintro doLift _ rfl
    refine (ih hrest₂ (hlrest.frame hw.frame) (by omega)).bind ?_
    rintro ⟨σ₃, del, lift⟩ ⟨kept, gone⟩ ⟨R', R₁, G, X, Y, hd⟩
    refine .pure ?_
    rw [← Stms.append_assoc]
    cases doCompound with
    | true => exact ⟨_, _, _, _, _, hd.delete hw hdis⟩
    | false =>
      cases doLift with
      | true => exact ⟨_, _, _, _, _, hd.lifted (Z := .ifElse s t e .nil .nil .nil) hw hdis
          (hd.lifts.ifElse s t e T' E')⟩
      | false => exact ⟨_, _, _, _, _, hd.keep hw hdis⟩
  | forLoop s b B rest _ ih =>
    rw [Stms.depth] at hn
    obtain ⟨i, cond, incr, hkind⟩ := h.holds.1
    obtain ⟨hlb, hlB, hlrest⟩ := hl
    obtain ⟨hB, hrest⟩ := h.forLoop
    have hdr := h.forLoop_disjoint
    have hnested : nested (σ.kind s) = some [b] := by rw [hkind]; rfl
    rw [Stms.roots, visitStms, hnested, prune]
    simp only [List.foldlM_cons, List.foldlM_nil, bind_assoc, pure_bind]
    refine ((hpr σ b B true hB hlb hlB (by omega)).and_right fun _ _ _ => prune_split).bind ?_
    rintro σ₁ ⟨B', goneB⟩ ⟨hPB, hsB⟩
    have hw := Walked.forLoop h hPB hsB
    have hrest₁ := hrest.frame hPB.frame hdr
    have hdis : List.Disjoint (Stms.forLoop s b B .nil).blocks rest.blocks := by
      have hb := h.blocks
      simp only [Stms.blocks] at hb ⊢
      unfold List.Disjoint
      grind
    refine Gen.Sim.ofOption_bind (if_pos hrest₁.stms) ?_
    refine (Gen.Sim.refl _).bind ?_
    rintro doCompound _ rfl
    refine (Gen.Sim.refl _).bind ?_
    rintro doLift _ rfl
    refine (ih hrest₁ (hlrest.frame hw.frame) (by omega)).bind ?_
    rintro ⟨σ₂, del, lift⟩ ⟨kept, gone⟩ ⟨R', R₁, G, X, Y, hd⟩
    refine .pure ?_
    cases doCompound with
    | true => exact ⟨_, _, _, _, _, hd.delete hw hdis⟩
    | false =>
      cases doLift with
      | false => exact ⟨_, _, _, _, _, hd.keep hw hdis⟩
      | true =>
        have hlift := hd.lifts.forLoop s b B'
        -- a loop that is lifted out of all loops loses the jumps out of it
        cases inLoop with
        | true => exact ⟨_, _, _, _, _, hd.lifted (Z := .forLoop s b .nil .nil) hw hdis hlift⟩
        | false =>
          have hZ : Stms.leaves (jumps jump B') ++ .forLoop s b .nil Y =
              (Stms.leaves (jumps jump B') ++ .forLoop s b .nil .nil) ++ Y := by
            rw [Stms.append_assoc]
            rfl
          have hZ' : Stms.leaves (jumps jump B') ++ .forLoop s b .nil (goneB ++ gone) =
              (Stms.leaves (jumps jump B') ++ .forLoop s b .nil .nil) ++ (goneB ++ gone) := by
            rw [Stms.append_assoc]
            rfl
          simp only [Bool.false_eq_true, if_false] at hlift ⊢
          rw [hZ] at hlift
          rw [hZ']
          exact ⟨_, _, _, _, _, hd.lifted hw hdis hlift⟩

/-- **`PruneBlock` prunes as the recursion does.** -/
theorem pruneBlock_sim (h : Ready σ jump Bs b T.roots T) (hb : σ.inLoop b = inLoop)
    (hl : σ.Loops inLoop T) (hn : T.depth < n) :
    Gen.Sim (fun σ' r => PrunedTo Bs b T r.1 r.2 σ σ') (pruneBlock p n b σ)
      (prune p jump inLoop T) := by
  induction n generalizing σ b T inLoop with
  | zero => omega
  | succ n ih =>
    have hstms := h.stms
    rw [pruneBlock, hstms, ← bind_pure (prune p jump inLoop T)]
    have hvisit := visitStms_sim (p := p) (fun σ c U l hr hc hl hn => ih hr hc hl hn) h hl
      (Nat.lt_succ_iff.mp hn)
    refine hvisit.bind ?_
    rintro ⟨σ₁, del, lift⟩ ⟨kept, gone⟩ ⟨R', R₁, G, X, Y, hd⟩
    have hr₁ := hd.ready h
    have hlifts := hd.lifts
    rw [← hb, ← hd.frame.inLoop b] at hlifts
    obtain ⟨σ₂, hrun, hs⟩ := settle_spec (n := n + 1) hd.drops hlifts hr₁
      (le_trans hd.depth (Nat.le_of_lt hn))
    have hblocks := hd.blocks
    show Gen.Sim _ (Gen.ofOption (σ₁.settle (n + 1) b del lift)) _
    rw [hrun]
    refine Gen.Sim.pure ⟨hs.stms, hs.holdsKept, (hd.gone_iff σ₂).mpr
      ⟨hd.holdsGone.frame hs.frame ?_, hs.holdsDropped, hs.holdsLifted⟩, ?_, ?_⟩
    · have hbn := (hblocks.cons b).nodup_iff.mpr h.blocks
      grind
    · have hsub : ∀ d ∈ R'.blocks, d ∈ T.blocks := fun d hd' =>
        hblocks.subset (List.mem_append_left _ hd')
      exact (hd.frame.mono (by simp)).trans (hs.frame.mono (by grind))
    · rw [hs.deleted, hd.deleted, hd.gone_roots]
      abel

/-! ## Sections -/

/-- The blocks of a list were made in the block its statements stand in. -/
def Placed (σ : Pruning M) : ℕ → Stms ℕ ℕ → Prop
  | _, .nil => True
  | b, .leaf _ rest => σ.Placed b rest
  | b, .ifElse _ t e T E rest =>
    ((σ.func.block t).parent = some b ∧ (σ.func.block t).role ≠ .loop) ∧
      ((σ.func.block e).parent = some b ∧ (σ.func.block e).role ≠ .loop) ∧
      σ.Placed t T ∧ σ.Placed e E ∧ σ.Placed b rest
  | b, .forLoop _ c B rest =>
    ((σ.func.block c).parent = some b ∧ (σ.func.block c).role = .loop) ∧
      σ.Placed c B ∧ σ.Placed b rest

/-- **The block `b` and those in it are a tree**, with the statements `T`: each
statement and each block stands once, and every parent is right. -/
structure Tree (σ : Pruning M) (b : ℕ) (T : Stms ℕ ℕ) : Prop where
  parent_lt : σ.func.ParentLt
  stms : σ.stms b = T.roots
  holds : σ.Holds T
  placed : σ.Placed b T
  ids : T.preorder.Nodup
  blocks : (b :: T.blocks).Nodup

/-- The breaks and continues. -/
def isJump (σ : Pruning M) (s : ℕ) : Bool := isBreakContinue (σ.kind s)

theorem inLoop_of_parent (hp : σ.func.ParentLt) (hc : (σ.func.block c).parent = some b) :
    σ.inLoop c = (decide ((σ.func.block c).role = .loop) || σ.inLoop b) := by
  unfold Pruning.inLoop
  rw [Func.chain_of_parent hp hc, List.any_cons]

theorem Placed.loops (hp : σ.func.ParentLt) (h : σ.Placed b T) : σ.Loops (σ.inLoop b) T := by
  induction T generalizing b with
  | nil => trivial
  | leaf s rest ih => exact ih h
  | ifElse s t e T E rest ihT ihE ih =>
    obtain ⟨⟨ht, hrt⟩, ⟨he, hre⟩, hT, hE, hrest⟩ := h
    have hlt : σ.inLoop t = σ.inLoop b := by
      rw [inLoop_of_parent hp ht, decide_eq_false hrt, Bool.false_or]
    have hle : σ.inLoop e = σ.inLoop b := by
      rw [inLoop_of_parent hp he, decide_eq_false hre, Bool.false_or]
    exact ⟨hlt, hle, hlt ▸ ihT hT, hle ▸ ihE hE, ih hrest⟩
  | forLoop s c B rest ihB ih =>
    obtain ⟨⟨hc, hrc⟩, hB, hrest⟩ := h
    have hlc : σ.inLoop c = true := by
      rw [inLoop_of_parent hp hc, decide_eq_true hrc, Bool.true_or]
    exact ⟨hlc, hlc ▸ ihB hB, ih hrest⟩

/-- **A section without gotos is pruned as the recursion says**, for all
probabilities and all draws: one coin for a leaf and two for a compound
statement of the section as it was; what is kept stands in its blocks, what
is deleted is in their lists of deleted statements. -/
theorem pruneBlock_refines (p : Probs) (σ : Pruning M) (b : ℕ) (T : Stms ℕ ℕ) (n : ℕ)
    (tape : Tape) (h : σ.Tree b T) (hgoto : σ.edges = []) (hn : T.depth < n)
    (htape : cost T ≤ tape.length) :
    ∃ σ' kept gone, pruneBlock p n b σ tape = some (σ', tape.drop (cost T)) ∧
      prune p σ.isJump (σ.inLoop b) T tape = some ((kept, gone), tape.drop (cost T)) ∧
      PrunedTo (b :: T.blocks).toFinset b T kept gone σ σ' ∧
      kept.preorder.Sublist T.preorder ∧
      (kept.preorder ++ gone.preorder).Perm T.preorder ∧
      (InLoops σ.isJump (σ.inLoop b) T → InLoops σ.isJump (σ.inLoop b) kept) := by
  have hready : Ready σ σ.isJump (b :: T.blocks).toFinset b T.roots T :=
    ⟨fun _ => rfl, hgoto, h.stms, h.holds, h.blocks, h.ids, fun d hd => List.mem_toFinset.mpr hd⟩
  have hsim := pruneBlock_sim (p := p) hready rfl (h.placed.loops h.parent_lt) hn tape
  have htotal : ∃ r, prune p σ.isJump (σ.inLoop b) T tape = some (r, tape.drop (cost T)) :=
    prune_total htape
  obtain ⟨⟨kept, gone⟩, hprune⟩ := htotal
  have hsplit := prune_split hprune
  rw [hprune] at hsim
  generalize hrun : pruneBlock p n b σ tape = r at hsim
  cases hsim with
  | @some x _ hx =>
    obtain ⟨σ', t'⟩ := x
    obtain ⟨hto, rfl⟩ := hx
    refine ⟨σ', kept, gone, rfl, hprune, hto, hsplit.sublist, ?_, hsplit.inLoops⟩
    rw [← Multiset.coe_eq_coe, ← Multiset.coe_add, Stms.coe_preorder, Stms.coe_preorder,
      Stms.coe_preorder, hsplit.weigh]

/-- `for (..) { g_1 = 0; if (g_1) break; } g_1 = 0;` in the block 1. -/
def loopSection : Pruning ℤ where
  func :=
    { block := fun b => match b with
        | 0 => ⟨none, .body, false, [], [0]⟩
        | 1 => ⟨some 0, .emi 0 1, false, [], [1, 4]⟩
        | 2 => ⟨some 1, .loop, false, [], [2, 3]⟩
        | _ => ⟨none, .branch, false, [], []⟩
      stm := fun s => match s with
        | 0 => ⟨0, .emi 0 1 1 3, []⟩
        | 1 => ⟨1, .forLoop id (fun m => decide (m < 5)) (· + 1) 2, []⟩
        | 2 => ⟨2, .simple fun _ => 0, []⟩
        | 3 => ⟨2, .brk fun m => decide (m ≠ 0), []⟩
        | _ => ⟨1, .simple fun _ => 0, []⟩ }

theorem loopSection_tree :
    loopSection.Tree 1 (.forLoop 1 2 (.leaf 2 (.leaf 3 .nil)) (.leaf 4 .nil)) where
  parent_lt := by
    intro b p h
    match b with
    | 0 => cases h
    | 1 =>
      cases h
      omega
    | 2 =>
      cases h
      omega
    | b + 3 => cases h
  stms := rfl
  holds := ⟨⟨_, _, _, rfl⟩, rfl, ⟨rfl, rfl, trivial⟩, rfl, trivial⟩
  placed := ⟨⟨rfl, rfl⟩, trivial, trivial⟩
  ids := by decide
  blocks := by decide

/-- The loop is lifted and its break goes; the statement after it is deleted. -/
theorem pruneBlock_refines_lift :
    ∃ σ', pruneBlock ⟨50, 10, 10⟩ 2 1 loopSection [99, 99, 99, 0, 0] = some (σ', []) ∧
      σ'.stms 1 = [2] := by
  obtain ⟨σ', kept, gone, hrun, hprune, hto, -⟩ := pruneBlock_refines ⟨50, 10, 10⟩ loopSection 1 _ 2
    [99, 99, 99, 0, 0] loopSection_tree rfl (by decide) (by decide)
  cases hprune
  exact ⟨σ', hrun, hto.stms⟩

end Pruning

end EMI

end CLSmith
