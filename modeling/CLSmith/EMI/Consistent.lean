import CLSmith.EMI.Containment
/-!
# What pruning leaves hangs together

`PruneBlock` with the outcomes of its coins, followed through a section: the
statements with blocks that are left, the blocks they are in and those still
in `func->blocks`. Gotos, which go with the statement they lead to, are no
matter: they have no blocks.
-/

namespace CLSmith

namespace EMI

open Generate Common

variable {M : Type}

namespace Listed

open Pruning

variable {σ σ' : Listed M} {b n : ℕ} {coins : Coins} {T R : Stms ℕ ℕ} {del lift : List ℕ}

theorem tables_removeStmts (σ : Listed M) (n b : ℕ) (del : List ℕ) :
    (removeStmts n b del σ).tables = σ.tables.removeStmts n b del := by
  induction del generalizing σ with
  | nil => rfl
  | cons s del ih => exact ih (σ.removeStmt n b s)

/-- A block that is in none of the statements stays in `func->blocks`. -/
theorem mem_blocks_removeStmts {d : ℕ} (hg : σ.tables.Good) (he : σ.tables.Gotos)
    (hdel : ∀ s ∈ del, (σ.tables.kind s).blocks ≠ [] → ∀ c, s ∈ σ.tables.stms c → c = b)
    (hd : d ∈ σ.blocks)
    (hout : ∀ s ∈ del, ∀ x ∈ (σ.tables.kind s).blocks, x ∉ σ.tables.func.chain d) :
    d ∈ (removeStmts n b del σ).blocks := by
  induction del generalizing σ with
  | nil => exact hd
  | cons s del ih =>
    have hs := hdel s List.mem_cons_self
    have hcalm : Calm [b] σ.tables (σ.tables.removeStmt n b s) := removeStmt_calm hg he hs
    refine ih (σ := σ.removeStmt n b s) (hcalm.good hg) (he.calm hcalm)
      (fun t ht hblocks c hc => ?_)
      (List.mem_filter.mpr ⟨hd, ?_⟩) fun t ht x hx => ?_
    · change (Pruning.kind (σ.tables.removeStmt n b s) t).blocks ≠ [] at hblocks
      rw [hcalm.kind] at hblocks
      exact hdel t (List.mem_cons_of_mem _ ht) hblocks c
        ((mem_removeStmt_iff hg he hblocks hs).mp hc).1
    · have hnot : ¬σ.tables.containsBlock s d = true := by
        unfold containsBlock
        rw [List.any_eq_true]
        rintro ⟨x, hx, hmem⟩
        exact hout s List.mem_cons_self x hx (of_decide_eq_true hmem)
      simpa using hnot
    · change x ∈ (Pruning.kind (σ.tables.removeStmt n b s) t).blocks at hx
      change x ∉ (σ.tables.removeStmt n b s).func.chain d
      rw [hcalm.kind] at hx
      rw [hcalm.chain]
      exact hout t (List.mem_cons_of_mem _ ht) x hx

/-- **What pruning the block `b`** with the statements `T` comes to: of the statements
with blocks, those the coins leave stand where they should, and a block stays listed
unless it is in one that goes. -/
structure Outcome (coins : Coins) (b : ℕ) (T : Stms ℕ ℕ) (σ σ' : Listed M) : Prop where
  calm : Calm (b :: T.blocks) σ.tables σ'.tables
  heads : σ'.tables.Heads b (coins.left T)
  shape : σ'.tables.Shape (coins.left T)
  listed : ∀ d ∈ σ.blocks, (∀ x ∈ coins.goneBlocks T, x ∉ σ.tables.func.chain d) → d ∈ σ'.blocks

/-- What the loop of `PruneBlock` comes to. -/
structure Walked (coins : Coins) (l : List ℕ) (R : Stms ℕ ℕ) (del lift : List ℕ)
    (σ σ' : Listed M) : Prop where
  calm : Calm R.blocks σ.tables σ'.tables
  shape : σ'.tables.Shape (coins.walked R)
  listed : ∀ d ∈ σ.blocks, (∀ x ∈ coins.goneBlocks R, x ∉ σ.tables.func.chain d) → d ∈ σ'.blocks
  del : ∀ s, s ∈ del ↔ s ∈ l ∧
    (if (σ.tables.kind s).blocks = [] then coins.leaf s else coins.compound s) = true
  lift : lift = (coins.walked R).roots.filter fun s => decide (coins.verdict s = .lift)

/-- The statements of a tree without those that have no blocks. -/
def bare : Stms ℕ ℕ → Stms ℕ ℕ
  | .nil => .nil
  | .leaf _ rest => bare rest
  | .ifElse s t e T E rest => .ifElse s t e (bare T) (bare E) (bare rest)
  | .forLoop s b B rest => .forLoop s b (bare B) (bare rest)

theorem Walked.nil (σ : Listed M) : Walked coins [] .nil [] [] σ σ :=
  ⟨.refl _ _, trivial, fun _ hd _ => hd, fun _ => by simp, rfl⟩

/-- A statement without blocks before the others. -/
theorem Walked.leaf {s : ℕ} {l : List ℕ} (h : Walked coins l R del lift σ σ')
    (hs : (σ.tables.kind s).blocks = []) :
    Walked coins (s :: l) R (if coins.leaf s then s :: del else del) lift σ σ' := by
  refine ⟨h.calm, h.shape, h.listed, fun t => ?_, h.lift⟩
  have hmem := h.del t
  rcases eq_or_ne t s with rfl | hne
  · by_cases hc : coins.leaf t = true <;> simp [hc, hs, hmem]
  · by_cases hc : coins.leaf s = true <;> simp [hc, hne, hmem]

/-- The first coin of a compound statement. -/
theorem mem_del_cons {s : ℕ} {l : List ℕ} (hs : (σ.tables.kind s).blocks ≠ [])
    (hdel : ∀ t, t ∈ del ↔ t ∈ l ∧
      (if (σ.tables.kind t).blocks = [] then coins.leaf t else coins.compound t) = true) (t : ℕ) :
    t ∈ (if coins.compound s then s :: del else del) ↔ t ∈ s :: l ∧
      (if (σ.tables.kind t).blocks = [] then coins.leaf t else coins.compound t) = true := by
  have hmem := hdel t
  rcases eq_or_ne t s with rfl | hne
  · by_cases hc : coins.compound t = true <;> simp [hc, hs, hmem]
  · by_cases hc : coins.compound s = true <;> simp [hc, hne, hmem]

theorem filter_lift (coins : Coins) (s : ℕ) (l : List ℕ) :
    (if (!coins.compound s && coins.lift s) = true then
        s :: l.filter fun s => decide (coins.verdict s = .lift)
      else l.filter fun s => decide (coins.verdict s = .lift)) =
      (s :: l).filter fun s => decide (coins.verdict s = .lift) := by
  rw [List.filter_cons]
  by_cases hc : coins.compound s = true <;> by_cases hl : coins.lift s = true <;>
    simp [Coins.verdict, hc, hl]

/-- **The loop of `PruneBlock`** prunes the blocks of each statement. -/
theorem visitStms_walked {pr : ℕ → Listed M → Option (Listed M)} {live l : List ℕ}
    (hpr : ∀ (σ : Listed M) c U σ', σ.tables.Good → σ.tables.Gotos → σ.tables.heads c = U.roots →
      σ.tables.Shape U → σ.tables.InOrder U → (c :: U.blocks).Nodup → pr c σ = some σ' →
      Outcome coins c U σ σ')
    (hg : σ.tables.Good) (he : σ.tables.Gotos) (hR : σ.tables.Shape R) (ho : σ.tables.InOrder R)
    (hn : (b :: R.blocks).Nodup)
    (hl : (l.filter fun s => decide ((σ.tables.kind s).blocks ≠ [])) = R.roots)
    (hrun : visitStms coins pr b live l σ = some (σ', del, lift)) :
    Walked coins l R del lift σ σ' := by
  induction l generalizing σ σ' R del lift with
  | nil =>
    cases hrun
    cases R with
    | nil => exact .nil σ
    | leaf s rest => exact hR.elim
    | ifElse s t e T E rest => cases hl
    | forLoop s c B rest => cases hl
  | cons s l ih =>
    rw [visitStms] at hrun
    cases hblocks : (σ.tables.kind s).blocks with
    | nil =>
      have hnested : nested (σ.tables.kind s) = none := by
        cases hkind : σ.tables.kind s <;> rw [hkind] at hblocks <;> first | rfl | cases hblocks
      rw [List.filter_cons_of_neg (by simp [hblocks])] at hl
      simp only [hnested, Option.bind_eq_bind, Option.bind_eq_some_iff, Option.some.injEq] at hrun
      obtain ⟨⟨σ₁, del₁, lift₁⟩, hrest, hout⟩ := hrun
      cases hout
      exact (ih hg he hR ho hn hl hrest).leaf hblocks
    | cons x xs =>
      have hne : (σ.tables.kind s).blocks ≠ [] := by simp [hblocks]
      rw [List.filter_cons_of_pos (by simp [hblocks])] at hl
      cases R with
      | nil => cases hl
      | leaf u rest => exact hR.elim
      | ifElse u t e T E rest =>
        obtain ⟨hsu, hl'⟩ := List.cons.inj hl
        subst hsu
        obtain ⟨⟨test, hkind⟩, ⟨-, hT⟩, ⟨-, hE⟩, hrest⟩ := hR
        obtain ⟨⟨ht, hoT⟩, ⟨hE₀, hoE⟩, hor⟩ := ho
        have hnested : nested (σ.tables.kind s) = some [t, e] := by rw [hkind]; rfl
        simp only [hnested, List.foldlM_cons, List.foldlM_nil, Option.bind_eq_bind,
          Option.bind_eq_some_iff, Option.pure_def, Option.some.injEq] at hrun
        obtain ⟨σ₂, ⟨σ₁, hrun₁, σ₂', hrun₂, rfl⟩, -, -, ⟨σ₃, del₃, lift₃⟩, hrun₃, hout⟩ := hrun
        cases hout
        simp only [Stms.blocks] at hn
        -- the blocks of the statement, then the statements after it
        have h₁ := hpr σ t T σ₁ hg he ht hT hoT (by grind) hrun₁
        have hg₁ := h₁.calm.good hg
        have he₁ := he.calm h₁.calm
        have h₂ := hpr σ₁ e E σ₂' hg₁ he₁ ((h₁.calm.heads e (by grind)).trans hE₀)
          (hE.calm h₁.calm (by grind)) (hoE.calm h₁.calm (by grind)) (by grind) hrun₂
        have hc : Calm (t :: T.blocks ++ e :: E.blocks) σ.tables σ₂'.tables :=
          (h₁.calm.mono (by grind)).trans (h₂.calm.mono (by grind))
        have h₃ := ih (h₂.calm.good hg₁) (he₁.calm h₂.calm) (hrest.calm hc (by grind))
          (hor.calm hc (by grind)) (by grind) (by simpa only [hc.kind] using hl') hrun₃
        have hTs := left_subset coins T
        have hEs := left_subset coins E
        refine ⟨(hc.mono ?_).trans (h₃.calm.mono ?_), ⟨⟨test, ?_⟩, ⟨?_, ?_⟩, ⟨?_, ?_⟩, h₃.shape⟩,
          fun d hd hx => ?_, mem_del_cons hne ?_, ?_⟩
        · simp only [Stms.blocks]
          grind
        · simp only [Stms.blocks]
          grind
        · rw [h₃.calm.kind, hc.kind, hkind]
        · exact (h₁.heads.calm h₂.calm (by grind)).calm h₃.calm (by grind)
        · exact (h₁.shape.calm h₂.calm (by grind)).calm h₃.calm (by grind)
        · exact h₂.heads.calm h₃.calm (by grind)
        · exact h₂.shape.calm h₃.calm (by grind)
        · simp only [Coins.goneBlocks, List.mem_append] at hx
          refine h₃.listed d (h₂.listed d (h₁.listed d hd ?_) ?_) ?_
          · exact fun x hmem => hx x (by simp [hmem])
          · rw [h₁.calm.chain]
            exact fun x hmem => hx x (by simp [hmem])
          · rw [hc.chain]
            exact fun x hmem => hx x (by simp [hmem])
        · simpa only [hc.kind] using h₃.del
        · rw [h₃.lift]
          exact filter_lift coins s (coins.walked rest).roots
      | forLoop u c B rest =>
        obtain ⟨hsu, hl'⟩ := List.cons.inj hl
        subst hsu
        obtain ⟨⟨i, cond, incr, hkind⟩, ⟨-, hB⟩, hrest⟩ := hR
        obtain ⟨⟨hc₀, hoB⟩, hor⟩ := ho
        have hnested : nested (σ.tables.kind s) = some [c] := by rw [hkind]; rfl
        simp only [hnested, List.foldlM_cons, List.foldlM_nil, Option.bind_eq_bind,
          Option.bind_eq_some_iff, Option.pure_def, Option.some.injEq] at hrun
        obtain ⟨σ₁, ⟨σ₁', hrun₁, rfl⟩, -, -, ⟨σ₃, del₃, lift₃⟩, hrun₃, hout⟩ := hrun
        cases hout
        simp only [Stms.blocks] at hn
        have h₁ := hpr σ c B σ₁' hg he hc₀ hB hoB (by grind) hrun₁
        have hc := h₁.calm
        have h₃ := ih (hc.good hg) (he.calm hc) (hrest.calm hc (by grind)) (hor.calm hc (by grind))
          (by grind) (by simpa only [hc.kind] using hl') hrun₃
        have hBs := left_subset coins B
        refine ⟨(hc.mono ?_).trans (h₃.calm.mono ?_), ⟨⟨i, cond, incr, ?_⟩, ⟨?_, ?_⟩, h₃.shape⟩,
          fun d hd hx => ?_, mem_del_cons hne ?_, ?_⟩
        · simp only [Stms.blocks]
          grind
        · simp only [Stms.blocks]
          grind
        · rw [h₃.calm.kind, hc.kind, hkind]
        · exact h₁.heads.calm h₃.calm (by grind)
        · exact h₁.shape.calm h₃.calm (by grind)
        · simp only [Coins.goneBlocks, List.mem_append] at hx
          refine h₃.listed d (h₁.listed d hd ?_) ?_
          · exact fun x hmem => hx x (by simp [hmem])
          · rw [hc.chain]
            exact fun x hmem => hx x (by simp [hmem])
        · simpa only [hc.kind] using h₃.del
        · rw [h₃.lift]
          exact filter_lift coins s (coins.walked rest).roots

section Settle

variable {τ : Pruning M}

theorem roots_walked (h : τ.Shape R) : (coins.walked R).roots = R.roots := by
  induction R with
  | nil => rfl
  | leaf s rest => exact h.elim
  | ifElse s t e T E rest _ _ ih =>
    rw [Coins.walked, Stms.roots, Stms.roots, ih h.2.2.2]
  | forLoop s c B rest _ ih => rw [Coins.walked, Stms.roots, Stms.roots, ih h.2.2]

theorem verdict_of_mem_left {u : ℕ} (h : u ∈ (coins.left R).roots) : coins.verdict u = .keep := by
  induction R with
  | nil => cases h
  | leaf s rest ih => exact ih h
  | ifElse s t e T E rest ihT ihE ih =>
    cases hv : coins.verdict s <;>
      simp only [Coins.left, hv, Stms.roots_append, Stms.roots, List.mem_append,
        List.mem_cons] at h <;> grind
  | forLoop s c B rest ihB ih =>
    cases hv : coins.verdict s <;>
      simp only [Coins.left, hv, Stms.roots_append, Stms.roots, List.mem_append,
        List.mem_cons] at h <;> grind

theorem mem_left_of_keep {u : ℕ} (h : τ.Shape R) (hu : u ∈ R.roots)
    (hv : coins.verdict u = .keep) : u ∈ (coins.left R).roots := by
  induction R with
  | nil => cases hu
  | leaf s rest => exact h.elim
  | ifElse s t e T E rest _ _ ih =>
    have hrest := ih h.2.2.2
    cases hs : coins.verdict s <;>
      simp only [Coins.left, hs, Stms.roots_append, Stms.roots, List.mem_append,
        List.mem_cons] at hu ⊢ <;> grind
  | forLoop s c B rest _ ih =>
    have hrest := ih h.2.2
    cases hs : coins.verdict s <;>
      simp only [Coins.left, hs, Stms.roots_append, Stms.roots, List.mem_append,
        List.mem_cons] at hu ⊢ <;> grind

theorem mem_goneBlocks {s x : ℕ} (h : τ.Shape R) (hs : s ∈ R.roots)
    (hv : coins.verdict s ≠ .keep) (hx : x ∈ (τ.kind s).blocks) : x ∈ coins.goneBlocks R := by
  induction R with
  | nil => cases hs
  | leaf u rest => exact h.elim
  | ifElse u t e T E rest _ _ ih =>
    obtain ⟨⟨test, hkind⟩, -, -, hrest⟩ := h
    rw [Coins.goneBlocks]
    rcases List.mem_cons.mp hs with rfl | hs
    · rw [hkind] at hx
      rw [if_neg hv]
      exact List.mem_append_left _ hx
    · have := ih hrest hs
      simp [this]
  | forLoop u c B rest _ ih =>
    obtain ⟨⟨i, t, r, hkind⟩, -, hrest⟩ := h
    rw [Coins.goneBlocks]
    rcases List.mem_cons.mp hs with rfl | hs
    · rw [hkind] at hx
      rw [if_neg hv]
      exact List.mem_append_left _ hx
    · have := ih hrest hs
      simp [this]

/-- **Deleting, lifting and removing what was lifted.** -/
theorem settle_outcome {σ₁ : Listed M} (hg : σ.tables.Good) (he : σ.tables.Gotos)
    (hb : σ.tables.Heads b R) (hR : σ.tables.Shape R) (hn : (b :: R.blocks).Nodup)
    (hw : Walked coins (σ.tables.stms b) R del lift σ σ₁)
    (hrun : σ₁.settle n b del lift = some σ') : Outcome coins b R σ σ' := by
  have hg₁ := hw.calm.good hg
  have he₁ := he.calm hw.calm
  have hb₁ := hb.calm hw.calm (List.nodup_cons.mp hn).1
  have hws := walked_subset coins R
  have hls := left_subset coins R
  have hroots : (coins.walked R).roots = R.roots := roots_walked hR
  have hhome : ∀ s ∈ R.roots, ∀ τ : Pruning M, τ.Good → s ∈ τ.stms b → ∀ d, s ∈ τ.stms d → d = b :=
    fun s _ τ hτ hs d hd => (hτ.parent d s hd).symm.trans (hτ.parent b s hs)
  -- a statement with blocks that is deleted was told so
  have hdel : ∀ s ∈ del, (σ₁.tables.kind s).blocks ≠ [] →
      s ∈ R.roots ∧ coins.verdict s = .delete := by
    intro s hs hblocks
    rw [hw.calm.kind] at hblocks
    obtain ⟨hmem, hcoin⟩ := (hw.del s).mp hs
    rw [if_neg hblocks] at hcoin
    exact ⟨(hb s).mp ⟨hmem, hblocks⟩, by rw [Coins.verdict, if_pos hcoin]⟩
  have hdel₁ : ∀ s ∈ del, (σ₁.tables.kind s).blocks ≠ [] → ∀ d, s ∈ σ₁.tables.stms d → d = b := by
    intro s hs hblocks
    have hmem := (hdel s hs hblocks).1
    exact hhome s hmem _ hg₁ ((hb₁ s).mpr hmem).1
  obtain ⟨hc₂, hmem₂⟩ := removeStmts_calm (n := n) hg₁ he₁ hdel₁
  have hlift : ∀ s ∈ lift, s ∈ R.roots ∧ coins.verdict s = .lift := by
    intro s hs
    rw [hw.lift, hroots, List.mem_filter] at hs
    exact ⟨hs.1, of_decide_eq_true hs.2⟩
  rw [settle, tables_removeStmts] at hrun
  simp only [Option.bind_eq_bind, Option.bind_eq_some_iff, Option.some.injEq] at hrun
  obtain ⟨τ, hlifted, rfl⟩ := hrun
  have hg₂ := hc₂.good hg₁
  have he₂ := he₁.calm hc₂
  have hkeep : ∀ s ∈ (coins.walked R).roots, coins.verdict s = .keep →
      s ∈ (σ₁.tables.removeStmts n b del).stms b := by
    intro s hs hv
    rw [hroots] at hs
    obtain ⟨hmem, hblocks⟩ := (hb₁ s).mpr hs
    refine (hmem₂ b s hblocks).mpr ⟨hmem, fun hd => ?_⟩
    rw [(hdel s hd hblocks).2] at hv
    cases hv
  obtain ⟨hc₃, hleft, hmem₃⟩ := liftStms_left hg₂ he₂
    (hw.shape.calm hc₂ fun c hc => by grind) hn hkeep hw.lift hlifted
  have hg₃ := hc₃.good hg₂
  have he₃ := he₂.calm hc₃
  have hc : Calm (b :: R.blocks) σ₁.tables τ := (hc₂.mono (by simp)).trans hc₃
  have hlift₃ : ∀ s ∈ lift, (τ.kind s).blocks ≠ [] → ∀ d, s ∈ τ.stms d → d = b := by
    intro s hs _
    obtain ⟨hmem, hv⟩ := hlift s hs
    obtain ⟨hmem₁, hblocks⟩ := (hb₁ s).mpr hmem
    have hstays : s ∈ (σ₁.tables.removeStmts n b del).stms b := by
      refine (hmem₂ b s hblocks).mpr ⟨hmem₁, fun hd => ?_⟩
      rw [(hdel s hd hblocks).2] at hv
      cases hv
    exact hhome s hmem _ hg₃ ((hmem₃ s (by rwa [hc₂.kind])).mpr (.inl hstays))
  obtain ⟨hc₄, hmem₄⟩ := removeStmts_calm (n := n) hg₃ he₃ hlift₃
  have hb_left : b ∉ (coins.left R).blocks := fun h => (List.nodup_cons.mp hn).1 (hls h)
  refine ⟨?_, ?_, ?_, fun d hd hx => ?_⟩
  · rw [tables_removeStmts]
    exact ((hw.calm.mono (by simp)).trans hc).trans (hc₄.mono (by simp))
  · rw [tables_removeStmts]
    intro u
    have hkind : ∀ s, (τ.removeStmts n b lift).kind s = σ₁.tables.kind s := fun s =>
      (hc₄.kind s).trans (hc.kind s)
    rw [hkind]
    constructor
    · rintro ⟨hu, hblocks⟩
      obtain ⟨hu₃, hnot⟩ := (hmem₄ b u (by rwa [hc.kind])).mp hu
      rcases (hmem₃ u (by rwa [hc₂.kind])).mp hu₃ with hu₂ | hu₂
      · obtain ⟨hu₁, hndel⟩ := (hmem₂ b u hblocks).mp hu₂
        have hroot := (hb₁ u).mp ⟨hu₁, hblocks⟩
        refine mem_left_of_keep hR hroot ?_
        have hndel' : coins.compound u ≠ true := by
          intro hcoin
          refine hndel ((hw.del u).mpr ⟨((hb u).mpr hroot).1, ?_⟩)
          rw [if_neg ((hb u).mpr hroot).2]
          exact hcoin
        have hnlift : coins.verdict u ≠ .lift := by
          intro hv
          refine hnot ?_
          rw [hw.lift, hroots]
          exact List.mem_filter.mpr ⟨hroot, decide_eq_true hv⟩
        rw [Coins.verdict, if_neg hndel'] at hnlift ⊢
        split
        · next hl =>
          rw [if_pos hl] at hnlift
          exact absurd rfl hnlift
        · rfl
      · exact hu₂
    · intro hu
      have hblocks : (σ₁.tables.kind u).blocks ≠ [] := by
        have := hleft.blocks_ne_nil u hu
        rwa [hc.kind] at this
      refine ⟨(hmem₄ b u (by rwa [hc.kind])).mpr
        ⟨(hmem₃ u (by rwa [hc₂.kind])).mpr (.inr hu), fun hl => ?_⟩, hblocks⟩
      have hv := verdict_of_mem_left hu
      rw [(hlift u hl).2] at hv
      cases hv
  · rw [tables_removeStmts]
    refine hleft.calm hc₄ fun c hmem hcb => ?_
    obtain rfl := List.mem_singleton.mp hcb
    exact hb_left hmem
  · -- no block around `d` is of a statement that is deleted or lifted
    refine mem_blocks_removeStmts hg₃ he₃ hlift₃ (mem_blocks_removeStmts hg₁ he₁ hdel₁
      (hw.listed d hd hx) fun s hs x hxs => ?_) fun s hs x hxs => ?_
    · have hblocks : (σ₁.tables.kind s).blocks ≠ [] := List.ne_nil_of_mem hxs
      obtain ⟨hmem, hv⟩ := hdel s hs hblocks
      rw [hw.calm.kind] at hxs
      rw [hw.calm.chain]
      exact hx x (mem_goneBlocks hR hmem (by rw [hv]; exact nofun) hxs)
    · obtain ⟨hmem, hv⟩ := hlift s hs
      change x ∈ (τ.kind s).blocks at hxs
      change x ∉ τ.func.chain d
      rw [hc.kind, hw.calm.kind] at hxs
      rw [hc.chain, hw.calm.chain]
      exact hx x (mem_goneBlocks hR hmem (by rw [hv]; exact nofun) hxs)

end Settle

/-- **`PruneBlock`**, block by block. -/
theorem pruneBlock_outcome (hg : σ.tables.Good) (he : σ.tables.Gotos)
    (hb : σ.tables.heads b = T.roots) (hT : σ.tables.Shape T) (ho : σ.tables.InOrder T)
    (hn : (b :: T.blocks).Nodup) (hrun : pruneBlock coins n b σ = some σ') :
    Outcome coins b T σ σ' := by
  induction n generalizing σ σ' b T with
  | zero => cases hrun
  | succ n ih =>
    rw [pruneBlock] at hrun
    simp only [Option.bind_eq_bind, Option.bind_eq_some_iff] at hrun
    obtain ⟨⟨σ₁, del, lift⟩, hvisit, hsettle⟩ := hrun
    have hw := visitStms_walked (fun σ c U σ' hg he hc hU ho hn hrun => ih hg he hc hU ho hn hrun)
      hg he hT ho hn hb hvisit
    exact settle_outcome hg he (heads_of_eq hb) hT hn hw hsettle

/-! ## A section -/

section Bare

theorem blocks_bare (T : Stms ℕ ℕ) : (bare T).blocks = T.blocks := by
  induction T with
  | nil => rfl
  | leaf s rest ih => exact ih
  | ifElse s t e T E rest ihT ihE ih => simp only [bare, Stms.blocks, ihT, ihE, ih]
  | forLoop s c B rest ihB ih => simp only [bare, Stms.blocks, ihB, ih]

theorem left_bare (coins : Coins) (T : Stms ℕ ℕ) : coins.left (bare T) = coins.left T := by
  induction T with
  | nil => rfl
  | leaf s rest ih => exact ih
  | ifElse s t e T E rest ihT ihE ih => simp only [bare, Coins.left, ihT, ihE, ih]
  | forLoop s c B rest ihB ih => simp only [bare, Coins.left, ihB, ih]

theorem goneBlocks_bare (coins : Coins) (T : Stms ℕ ℕ) :
    coins.goneBlocks (bare T) = coins.goneBlocks T := by
  induction T with
  | nil => rfl
  | leaf s rest ih => exact ih
  | ifElse s t e T E rest ihT ihE ih => simp only [bare, Coins.goneBlocks, ihT, ihE, ih]
  | forLoop s c B rest ihB ih => simp only [bare, Coins.goneBlocks, ihB, ih]

variable {τ : Pruning M} (hemi : ∀ s ∈ T.preorder, ∀ i j t e, τ.kind s ≠ .emi i j t e)

include hemi

theorem filter_roots (h : τ.Holds T) :
    (T.roots.filter fun s => decide ((τ.kind s).blocks ≠ [])) = (bare T).roots := by
  induction T with
  | nil => rfl
  | leaf s rest ih =>
    have hs := blocks_of_nested h.1 (hemi s List.mem_cons_self)
    rw [Stms.roots, List.filter_cons_of_neg (by simp [hs]), bare]
    exact ih (fun u hu => hemi u (List.mem_cons_of_mem _ hu)) h.2
  | ifElse s t e T E rest _ _ ih =>
    obtain ⟨⟨test, hkind⟩, -, -, -, -, hrest⟩ := h
    rw [Stms.roots, List.filter_cons_of_pos (by simp [hkind, Kind.blocks]), bare, Stms.roots,
      ih (fun u hu => hemi u (by simp [Stms.preorder, hu])) hrest]
  | forLoop s c B rest _ ih =>
    obtain ⟨⟨i, t, r, hkind⟩, -, -, hrest⟩ := h
    rw [Stms.roots, List.filter_cons_of_pos (by simp [hkind, Kind.blocks]), bare, Stms.roots,
      ih (fun u hu => hemi u (by simp [Stms.preorder, hu])) hrest]

theorem heads_of_stms {c : ℕ} (h : τ.Holds T) (hc : τ.stms c = T.roots) :
    τ.heads c = (bare T).roots := by
  rw [heads, hc]
  exact filter_roots hemi h

theorem shape_bare (h : τ.Holds T) : τ.Shape (bare T) ∧ τ.InOrder (bare T) := by
  induction T with
  | nil => exact ⟨trivial, trivial⟩
  | leaf s rest ih => exact ih (fun u hu => hemi u (List.mem_cons_of_mem _ hu)) h.2
  | ifElse s t e T E rest ihT ihE ih =>
    obtain ⟨hkind, ht, he, hT, hE, hrest⟩ := h
    have hemiT : ∀ u ∈ T.preorder, ∀ i j t e, τ.kind u ≠ .emi i j t e :=
      fun u hu => hemi u (by simp [Stms.preorder, hu])
    have hemiE : ∀ u ∈ E.preorder, ∀ i j t e, τ.kind u ≠ .emi i j t e :=
      fun u hu => hemi u (by simp [Stms.preorder, hu])
    have ht := heads_of_stms hemiT hT ht
    have he := heads_of_stms hemiE hE he
    obtain ⟨hsT, hoT⟩ := ihT hemiT hT
    obtain ⟨hsE, hoE⟩ := ihE hemiE hE
    obtain ⟨hs, ho⟩ := ih (fun u hu => hemi u (by simp [Stms.preorder, hu])) hrest
    exact ⟨⟨hkind, ⟨heads_of_eq ht, hsT⟩, ⟨heads_of_eq he, hsE⟩, hs⟩, ⟨ht, hoT⟩, ⟨he, hoE⟩, ho⟩
  | forLoop s c B rest ihB ih =>
    obtain ⟨hkind, hc, hB, hrest⟩ := h
    have hemiB : ∀ u ∈ B.preorder, ∀ i j t e, τ.kind u ≠ .emi i j t e :=
      fun u hu => hemi u (by simp [Stms.preorder, hu])
    have hc := heads_of_stms hemiB hB hc
    obtain ⟨hsB, hoB⟩ := ihB hemiB hB
    obtain ⟨hs, ho⟩ := ih (fun u hu => hemi u (by simp [Stms.preorder, hu])) hrest
    exact ⟨⟨hkind, ⟨heads_of_eq hc, hsB⟩, hs⟩, ⟨hc, hoB⟩, ho⟩

end Bare

section Below

variable {τ : Pruning M} {c d s : ℕ} {X : Stms ℕ ℕ}

/-- **A tree hangs where it is**, if all blocks below do. -/
theorem hangs_of_nested (hX : τ.Shape X) (hc : Below τ b c) (hroots : ∀ s ∈ X.roots, s ∈ τ.stms c)
    (h : ∀ c, Below τ b c → ∀ s ∈ τ.stms c, ∀ d ∈ (τ.kind s).blocks,
      (τ.func.block d).parent = some c) : τ.Hangs c X := by
  induction X generalizing c with
  | nil => trivial
  | leaf s rest => exact hX.elim
  | ifElse s t e T E rest ihT ihE ih =>
    obtain ⟨⟨test, hkind⟩, ⟨ht, hT⟩, ⟨he, hE⟩, hrest⟩ := hX
    have hs := hroots s List.mem_cons_self
    have hblocks : (τ.kind s).blocks = [t, e] := by rw [hkind]; rfl
    have htm : t ∈ (τ.kind s).blocks := by simp [hblocks]
    have hem : e ∈ (τ.kind s).blocks := by simp [hblocks]
    exact ⟨h c hc s hs t htm, h c hc s hs e hem,
      ihT hT (hc.nested hs htm) fun u hu => ((ht u).mpr hu).1,
      ihE hE (hc.nested hs hem) fun u hu => ((he u).mpr hu).1,
      ih hrest hc fun u hu => hroots u (List.mem_cons_of_mem _ hu)⟩
  | forLoop s d B rest ihB ih =>
    obtain ⟨⟨i, t, r, hkind⟩, ⟨hd, hB⟩, hrest⟩ := hX
    have hs := hroots s List.mem_cons_self
    have hdm : d ∈ (τ.kind s).blocks := by simp [hkind, Kind.blocks]
    exact ⟨h c hc s hs d hdm, ihB hB (hc.nested hs hdm) fun u hu => ((hd u).mpr hu).1,
      ih hrest hc fun u hu => hroots u (List.mem_cons_of_mem _ hu)⟩

/-- The tree of a block of one of the roots. -/
theorem exists_child (hX : τ.Shape X) (hc : τ.Hangs c X) (hs : s ∈ X.roots)
    (hd : d ∈ (τ.kind s).blocks) :
    (τ.func.block d).parent = some c ∧ d ∈ X.blocks ∧
      ∃ Z, τ.Heads d Z ∧ τ.Shape Z ∧ τ.Hangs d Z ∧ Z.blocks ⊆ X.blocks := by
  induction X with
  | nil => cases hs
  | leaf u rest => exact hX.elim
  | ifElse u t e T E rest _ _ ih =>
    obtain ⟨⟨test, hkind⟩, ⟨ht, hT⟩, ⟨he, hE⟩, hrest⟩ := hX
    obtain ⟨hpt, hpe, hhT, hhE, hhrest⟩ := hc
    rcases List.mem_cons.mp hs with rfl | hs
    · rw [hkind] at hd
      simp only [Kind.blocks, List.mem_cons, List.not_mem_nil, or_false] at hd
      rcases hd with rfl | rfl
      · exact ⟨hpt, by simp [Stms.blocks], T, ht, hT, hhT, by simp [Stms.blocks]⟩
      · refine ⟨hpe, by simp [Stms.blocks], E, he, hE, hhE, ?_⟩
        simp only [Stms.blocks]
        grind
    · obtain ⟨hp, hm, Z, hZ, hsZ, hhZ, hsub⟩ := ih hrest hhrest hs
      refine ⟨hp, by simp [Stms.blocks, hm], Z, hZ, hsZ, hhZ, ?_⟩
      simp only [Stms.blocks]
      grind
  | forLoop u x B rest _ ih =>
    obtain ⟨⟨i, t, r, hkind⟩, ⟨hx, hB⟩, hrest⟩ := hX
    obtain ⟨hpx, hhB, hhrest⟩ := hc
    rcases List.mem_cons.mp hs with rfl | hs
    · rw [hkind] at hd
      obtain rfl := List.mem_singleton.mp hd
      exact ⟨hpx, by simp [Stms.blocks], B, hx, hB, hhB, by simp [Stms.blocks]⟩
    · obtain ⟨hp, hm, Z, hZ, hsZ, hhZ, hsub⟩ := ih hrest hhrest hs
      refine ⟨hp, by simp [Stms.blocks, hm], Z, hZ, hsZ, hhZ, ?_⟩
      simp only [Stms.blocks]
      grind

theorem lt_of_hangs (hp : τ.func.ParentLt) (h : τ.Hangs c X) : ∀ d ∈ X.blocks, c < d := by
  induction X generalizing c with
  | nil => exact fun _ h => nomatch h
  | leaf s rest ih => exact ih h
  | ifElse s t e T E rest ihT ihE ih =>
    obtain ⟨ht, he, hT, hE, hrest⟩ := h
    have hct := hp t c ht
    have hce := hp e c he
    intro d hd
    simp only [Stms.blocks, List.mem_append, List.mem_cons] at hd
    rcases hd with hd | rfl | hd | rfl | hd
    · exact hct.trans (ihT hT d hd)
    · exact hct
    · exact hce.trans (ihE hE d hd)
    · exact hce
    · exact ih hrest d hd
  | forLoop s x B rest ihB ih =>
    obtain ⟨hx, hB, hrest⟩ := h
    have hcx := hp x c hx
    intro d hd
    simp only [Stms.blocks, List.mem_append, List.mem_cons] at hd
    rcases hd with hd | rfl | hd
    · exact hcx.trans (ihB hB d hd)
    · exact hcx
    · exact ih hrest d hd

end Below

/-- **A section before it is pruned**: a tree of statements, each in its
parent once; its blocks are in `func->blocks` and it has no section in it. -/
structure Intact (σ : Listed M) (b : ℕ) (T : Stms ℕ ℕ) : Prop where
  tree : σ.tables.Tree b T
  good : σ.tables.Good
  gotos : σ.tables.Gotos
  emi : ∀ s ∈ T.preorder, ∀ i j t e, σ.tables.kind s ≠ .emi i j t e
  listed : ∀ d ∈ T.blocks, d ∈ σ.blocks

theorem Intact.outcome (h : Intact σ b T) (hrun : pruneBlock coins n b σ = some σ') :
    Outcome coins b (bare T) σ σ' := by
  obtain ⟨hshape, horder⟩ := shape_bare h.emi h.tree.holds
  refine pruneBlock_outcome h.good h.gotos (heads_of_stms h.emi h.tree.holds h.tree.stms) hshape
    horder ?_ hrun
  rw [blocks_bare]
  exact h.tree.blocks

/-- **Pruning keeps the section consistent** just where no statement is kept that
stands in the block of a lifted one. `MergeBlock` gives the lifted statements their
new block, but the blocks they have go on to name the old one as their parent. -/
theorem pruneBlock_consistent_iff (h : Intact σ b T) (hrun : pruneBlock coins n b σ = some σ') :
    Consistent σ' b ↔ coins.Flat false T := by
  have ho := h.outcome hrun
  have hgood := ho.calm.good h.good
  have hp : σ'.tables.func.ParentLt := fun c p hc => h.tree.parent_lt c p (ho.calm.parent c ▸ hc)
  have hT : σ'.tables.Hangs b T := h.tree.placed.hangs.calm ho.calm
  have hiff : σ'.tables.Hangs b (coins.left T) ↔ coins.Flat false T := by
    have : σ'.tables.Hangs b (coins.left T) ↔ coins.Flat (decide (b ≠ b)) T :=
      hangs_left_iff hp hT (le_refl b)
    simpa using this
  have hheads := ho.heads
  have hshape := ho.shape
  rw [left_bare] at hheads hshape
  rw [← hiff]
  constructor
  · intro hcons
    exact hangs_of_nested hshape .self (fun s hs => ((hheads s).mpr hs).1) hcons.nested
  · intro hangs
    have hnodup := h.tree.blocks
    have hperm := keptBlocks_append_goneBlocks coins T
    have hdis : ∀ x ∈ coins.keptBlocks T, x ∉ coins.goneBlocks T := by
      have := hperm.nodup_iff.mpr (List.nodup_cons.mp hnodup).2
      exact fun x hx hx' => List.disjoint_of_nodup_append this hx hx'
    -- what stands in a block below is a tree, and no block around it is of a statement that went
    have hbelow : ∀ c, Below σ'.tables b c → (∀ x ∈ coins.goneBlocks T, x ∉ σ.tables.func.chain c) ∧
        ∃ Y, σ'.tables.Heads c Y ∧ σ'.tables.Shape Y ∧ σ'.tables.Hangs c Y ∧
          Y.blocks ⊆ (coins.left T).blocks := by
      intro c hc
      induction hc with
      | self =>
        refine ⟨fun x hx hmem => ?_, _, hheads, hshape, hangs, List.Subset.refl _⟩
        have hlt := lt_of_hangs hp hT x (hperm.subset (List.mem_append_right _ hx))
        have hle := Func.lt_of_mem_chain h.tree.parent_lt hmem
        omega
      | @nested c s d _ hs hd ih =>
        obtain ⟨hout, Y, hY, hsY, hhY, hsub⟩ := ih
        obtain ⟨hpar, hmem, Z, hZ, hsZ, hhZ, hsubZ⟩ :=
          exists_child hsY hhY ((hY s).mp ⟨hs, List.ne_nil_of_mem hd⟩) hd
        refine ⟨fun x hx hmemx => ?_, Z, hZ, hsZ, hhZ, List.Subset.trans hsubZ hsub⟩
        rw [ho.calm.parent] at hpar
        rw [Func.chain_of_parent h.tree.parent_lt hpar] at hmemx
        rcases List.mem_cons.mp hmemx with rfl | hmemx
        · exact hdis x (left_blocks_subset coins T (hsub hmem)) hx
        · exact hout x hx hmemx
    refine ⟨fun c _ s hs => hgood.parent c s hs, fun c hc s hs d hd => ?_, fun c hc s hs d hd => ?_⟩
    · obtain ⟨-, Y, hY, hsY, hhY, -⟩ := hbelow c hc
      exact (exists_child hsY hhY ((hY s).mp ⟨hs, List.ne_nil_of_mem hd⟩) hd).1
    · obtain ⟨-, Y, hY, hsY, hhY, hsub⟩ := hbelow c hc
      have hmem := (exists_child hsY hhY ((hY s).mp ⟨hs, List.ne_nil_of_mem hd⟩) hd).2.1
      refine ho.listed d (h.listed d (left_subset coins T (hsub hmem))) ?_
      rw [goneBlocks_bare]
      exact (hbelow d (hc.nested hs hd)).1

/-! ## The coins on a tape -/

/-- Either outcome of a coin can be drawn. -/
theorem rndFlipcoin_outcome (o : Bool) (t : Tape) :
    rndFlipcoin 50 ((if o then 0 else 99) :: t) = some (o, t) := by
  cases o <;> rfl

theorem visitStms_tape {pr : ℕ → Listed M → Option (Listed M)}
    {pr' : ℕ → Pruning M → Gen (Pruning M)} {live l : List ℕ}
    (hpr : ∀ c (σ σ' : Listed M), pr c σ = some σ' →
      ∃ tape, ∀ t, pr' c σ.tables (tape ++ t) = some (σ'.tables, t))
    (hrun : visitStms coins pr b live l σ = some (σ', del, lift)) :
    ∃ tape, ∀ t, Pruning.visitStms ⟨50, 50, 50⟩ pr' b live l σ.tables (tape ++ t) =
      some ((σ'.tables, del, lift), t) := by
  induction l generalizing σ σ' del lift with
  | nil =>
    cases hrun
    exact ⟨[], fun t => rfl⟩
  | cons s l ih =>
    rw [visitStms] at hrun
    cases hnested : nested (σ.tables.kind s) with
    | none =>
      simp only [hnested, Option.bind_eq_bind, Option.bind_eq_some_iff, Option.some.injEq] at hrun
      obtain ⟨⟨σ₁, del₁, lift₁⟩, hrest, hout⟩ := hrun
      cases hout
      obtain ⟨tape, htape⟩ := ih hrest
      refine ⟨(if coins.leaf s then 0 else 99) :: tape, fun t => ?_⟩
      rw [Pruning.visitStms, hnested]
      exact Gen.bind_eq_some.mpr ⟨_, _, rndFlipcoin_outcome (coins.leaf s) _,
        Gen.bind_eq_some.mpr ⟨_, _, htape t, rfl⟩⟩
    | some blks =>
      simp only [hnested, Option.bind_eq_bind, Option.bind_eq_some_iff, Option.some.injEq] at hrun
      obtain ⟨σ₁, hblks, u, hun, ⟨σ₂, del₂, lift₂⟩, hrest, hout⟩ := hrun
      cases hout
      -- the blocks of the statement, one after the other
      have hfold : ∀ (blks : List ℕ) (σ σ₁ : Listed M), blks.foldlM (fun σ c => pr c σ) σ =
        some σ₁ →
          ∃ tape, ∀ t, blks.foldlM (fun σ c => pr' c σ) σ.tables (tape ++ t) =
            some (σ₁.tables, t) := by
        intro blks
        induction blks with
        | nil =>
          intro σ σ₁ h
          cases h
          exact ⟨[], fun t => rfl⟩
        | cons c blks ihb =>
          intro σ σ₁ h
          rw [List.foldlM_cons, Option.bind_eq_bind, Option.bind_eq_some_iff] at h
          obtain ⟨σ₀, h₀, h₁⟩ := h
          obtain ⟨tape₀, htape₀⟩ := hpr c σ σ₀ h₀
          obtain ⟨tape₁, htape₁⟩ := ihb σ₀ σ₁ h₁
          refine ⟨tape₀ ++ tape₁, fun t => ?_⟩
          rw [List.foldlM_cons, List.append_assoc]
          exact Gen.bind_eq_some.mpr ⟨_, _, htape₀ _, htape₁ t⟩
      obtain ⟨tape₁, htape₁⟩ := hfold blks σ σ₁ hblks
      obtain ⟨tape, htape⟩ := ih hrest
      refine ⟨tape₁ ++ (if coins.compound s then 0 else 99) :: (if coins.lift s then 0 else 99) ::
        tape, fun t => ?_⟩
      rw [Pruning.visitStms, hnested, List.append_assoc]
      refine Gen.bind_eq_some.mpr ⟨_, _, htape₁ _, Gen.bind_eq_some.mpr ⟨u, _, ?_,
        Gen.bind_eq_some.mpr ⟨_, _, rndFlipcoin_outcome (coins.compound s) _,
          Gen.bind_eq_some.mpr ⟨_, _, rndFlipcoin_outcome (coins.lift s) _,
            Gen.bind_eq_some.mpr ⟨_, _, htape t, rfl⟩⟩⟩⟩⟩
      rw [hun]
      rfl

theorem tables_settle (hrun : σ.settle n b del lift = some σ') :
    σ.tables.settle n b del lift = some σ'.tables := by
  rw [settle, tables_removeStmts] at hrun
  simp only [Option.bind_eq_bind, Option.bind_eq_some_iff, Option.some.injEq] at hrun
  obtain ⟨τ, hlift, rfl⟩ := hrun
  rw [Pruning.settle, tables_removeStmts]
  simp only [hlift, Option.bind_eq_bind, Option.bind_some]

/-- **For all outcomes there are numbers to draw** with which `PruneBlock`
does the same. -/
theorem pruneBlock_tape (hrun : pruneBlock coins n b σ = some σ') :
    ∃ tape, ∀ t, Pruning.pruneBlock ⟨50, 50, 50⟩ n b σ.tables (tape ++ t) =
      some (σ'.tables, t) := by
  induction n generalizing b σ σ' with
  | zero => cases hrun
  | succ n ih =>
    rw [pruneBlock] at hrun
    simp only [Option.bind_eq_bind, Option.bind_eq_some_iff] at hrun
    obtain ⟨⟨σ₁, del, lift⟩, hvisit, hsettle⟩ := hrun
    obtain ⟨tape, htape⟩ := visitStms_tape (fun c σ σ' h => ih h) hvisit
    refine ⟨tape, fun t => ?_⟩
    rw [Pruning.pruneBlock]
    refine Gen.bind_eq_some.mpr ⟨_, _, htape t, ?_⟩
    simp only [tables_settle hsettle]
    rfl

/-- `if (..) { for (..) { g_1 = 0; } }` in the block 1. -/
def nestedSection : Listed ℤ where
  tables :=
    { func :=
        { block := fun b => match b with
            | 0 => ⟨none, .body, false, [], [0]⟩
            | 1 => ⟨some 0, .emi 0 1, false, [], [1]⟩
            | 2 => ⟨some 1, .branch, false, [], [2]⟩
            | 3 => ⟨some 1, .branch, false, [], []⟩
            | 4 => ⟨some 2, .loop, false, [], [3]⟩
            | _ => ⟨none, .branch, false, [], []⟩
          stm := fun s => match s with
            | 0 => ⟨0, .emi 0 1 1 5, []⟩
            | 1 => ⟨1, .ifElse (fun m => decide (m ≠ 0)) 2 3, []⟩
            | 2 => ⟨2, .forLoop id (fun m => decide (m < 5)) (· + 1) 4, []⟩
            | _ => ⟨4, .simple fun _ => 0, []⟩ } }
  blocks := [0, 1, 2, 3, 4, 5]

theorem nestedSection_intact :
    Intact nestedSection 1 (.ifElse 1 2 3 (.forLoop 2 4 (.leaf 3 .nil) .nil) .nil .nil) where
  tree :=
    { parent_lt := by
        intro b p h
        rcases b with _ | _ | _ | _ | _ | b
        · cases h
        iterate 4
          · cases h
            omega
        · cases h
      stms := rfl
      holds := ⟨⟨_, rfl⟩, rfl, rfl, ⟨⟨_, _, _, rfl⟩, rfl, ⟨rfl, trivial⟩, trivial⟩, trivial,
        trivial⟩
      placed := ⟨⟨rfl, by decide⟩, ⟨rfl, by decide⟩, ⟨⟨rfl, rfl⟩, trivial, trivial⟩, trivial,
        trivial⟩
      ids := by decide
      blocks := by decide }
  good :=
    { nodup := fun c => by
        rcases c with _ | _ | _ | _ | _ | c
        iterate 5
          · decide
        · exact List.nodup_nil
      parent := fun c s hs => by
        rcases c with _ | _ | _ | _ | _ | c
        iterate 3
          · obtain rfl := List.mem_singleton.mp hs
            rfl
        · cases hs
        · obtain rfl := List.mem_singleton.mp hs
          rfl
        · cases hs
      gone := fun _ _ _ h => absurd h List.not_mem_nil }
  gotos := fun _ h => absurd h List.not_mem_nil
  emi := by
    intro s hs
    simp only [Stms.preorder, List.append_nil, List.mem_cons, List.not_mem_nil, or_false] at hs
    rcases hs with rfl | rfl | rfl
    all_goals
      intro _ _ _ _ h
      cases h
  listed := by decide

/-- Both statements are kept. -/
theorem pruneBlock_consistent_iff_keep :
    ∃ σ', pruneBlock ⟨fun _ => false, fun _ => false, fun _ => false⟩ 3 1 nestedSection = some σ' ∧
      Consistent σ' 1 := by
  have hrun : (pruneBlock ⟨fun _ => false, fun _ => false, fun _ => false⟩ 3 1
      nestedSection).isSome = true := rfl
  obtain ⟨σ', hσ'⟩ := Option.isSome_iff_exists.mp hrun
  refine ⟨σ', hσ', (pruneBlock_consistent_iff nestedSection_intact hσ').mpr ?_⟩
  exact ⟨⟨rfl, ⟨⟨rfl, trivial⟩, trivial⟩, trivial⟩, trivial⟩

/-- **The if is lifted and the for in it kept**: its body still has the block
of the if as parent, and is deleted with the if. -/
theorem pruneBlock_not_consistent :
    Intact nestedSection 1 (.ifElse 1 2 3 (.forLoop 2 4 (.leaf 3 .nil) .nil) .nil .nil) ∧
      ∃ σ', pruneBlock ⟨fun _ => false, fun _ => false, fun s => decide (s = 1)⟩ 3 1 nestedSection =
          some σ' ∧
        σ'.tables.stms 1 = [2] ∧ (σ'.tables.func.block 4).parent = some 2 ∧
        σ'.blocks = [0, 1, 5] ∧ ¬Consistent σ' 1 := by
  have hrun : (pruneBlock ⟨fun _ => false, fun _ => false, fun s => decide (s = 1)⟩ 3 1
      nestedSection).isSome = true := rfl
  obtain ⟨σ', hσ'⟩ := Option.isSome_iff_exists.mp hrun
  have hσ : (pruneBlock ⟨fun _ => false, fun _ => false, fun s => decide (s = 1)⟩ 3 1
      nestedSection).map (fun σ => (σ.tables.stms 1, (σ.tables.func.block 4).parent, σ.blocks)) =
        some ([2], some 2, [0, 1, 5]) := rfl
  have hkind := (nestedSection_intact.outcome hσ').calm.kind 2
  rw [hσ', Option.map_some, Option.some.injEq, Prod.mk.injEq, Prod.mk.injEq] at hσ
  obtain ⟨hstms, hparent, hblocks⟩ := hσ
  refine ⟨nestedSection_intact, σ', hσ', hstms, hparent, hblocks, fun h => ?_⟩
  have hbody := h.nested 1 .self 2 (by simp [hstms]) 4 (by rw [hkind]; decide)
  rw [hparent] at hbody
  cases hbody

end Listed

end EMI

end CLSmith
