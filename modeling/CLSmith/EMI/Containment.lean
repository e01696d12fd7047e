import CLSmith.EMI.Refines
import CLSmith.EMI.InSync
/-!
# Blocks where they were made

`MergeBlock` moves the statements of a block and sets their parents; the
blocks nested in them keep theirs. Pruning with the outcomes of its coins
given for each statement, with `func->blocks`, from which `remove_stmt`
takes every block that by its parents is inside the statement: what it
leaves of a section hangs together just where no statement is kept that
stands in the block of one that is lifted.
-/

namespace CLSmith

namespace EMI

open Generate Common

variable {M : Type}

/-- **The outcomes of the coins**, by the statement they are drawn for. A leaf has
one, a compound statement one for being pruned and one for being lifted. -/
structure Coins where
  leaf : ℕ → Bool
  compound : ℕ → Bool
  lift : ℕ → Bool

/-- What becomes of a compound statement, by the two coins that are flipped for it:
the second is for one that is not deleted. -/
inductive Verdict
  | delete | lift | keep
deriving DecidableEq

def Coins.verdict (coins : Coins) (s : ℕ) : Verdict :=
  if coins.compound s then .delete else if coins.lift s then .lift else .keep

/-- `contains_stmt` of a block: one of the blocks of `s` is around it. -/
def Pruning.containsBlock (σ : Pruning M) (s d : ℕ) : Bool :=
  (σ.kind s).blocks.any fun c => decide (c ∈ σ.func.chain d)

/-- **A function under pruning** with its `func->blocks`, from which `PruneBlock`
takes the blocks of what it deletes. -/
structure Listed (M : Type) where
  tables : Pruning M
  blocks : List ℕ

namespace Listed

/-- `remove_stmt`, which deletes the blocks inside the statement. The gotos
that go with it have none. -/
def removeStmt (n b s : ℕ) (σ : Listed M) : Listed M :=
  ⟨σ.tables.removeStmt n b s, σ.blocks.filter fun d => !σ.tables.containsBlock s d⟩

def removeStmts (n b : ℕ) (del : List ℕ) (σ : Listed M) : Listed M :=
  del.foldl (fun σ s => σ.removeStmt n b s) σ

/-- The loop of `PruneBlock`. -/
def visitStms (coins : Coins) (prune : ℕ → Listed M → Option (Listed M)) (b : ℕ) (live : List ℕ) :
    List ℕ → Listed M → Option (Listed M × List ℕ × List ℕ)
  | [], σ => some (σ, [], [])
  | s :: rest, σ =>
    match nested (σ.tables.kind s) with
    | none => do
      let (σ, del, lift) ← visitStms coins prune b live rest σ
      some (σ, if coins.leaf s then s :: del else del, lift)
    | some blks => do
      let σ ← blks.foldlM (fun σ c => prune c σ) σ
      σ.tables.unchanged b live
      let (σ, del, lift) ← visitStms coins prune b live rest σ
      some (σ, if coins.compound s then s :: del else del,
        if !coins.compound s && coins.lift s then s :: lift else lift)

/-- The part of `PruneBlock` after its loop. `RemoveBreakContinue` and
`MergeBlock` leave `func->blocks`. -/
def settle (n b : ℕ) (del lift : List ℕ) (σ : Listed M) : Option (Listed M) := do
  let σ := σ.removeStmts n b del
  let τ ← Pruning.liftStms n b (σ.tables.inLoop b) lift 0 σ.tables
  some (removeStmts n b lift ⟨τ, σ.blocks⟩)

/-- **`PruneBlock`** with these outcomes, in place of the generator that draws them. -/
def pruneBlock (coins : Coins) : ℕ → ℕ → Listed M → Option (Listed M)
  | 0, _, _ => none
  | n + 1, b, σ => do
    let (σ, del, lift) ←
      visitStms coins (pruneBlock coins n) b (σ.tables.stms b) (σ.tables.stms b) σ
    σ.settle (n + 1) b del lift

end Listed

/-- The blocks in the block `b`, over the statements that stand in them. -/
inductive Below (σ : Pruning M) (b : ℕ) : ℕ → Prop
  | self : Below σ b b
  | nested {c s d : ℕ} (hc : Below σ b c) (hs : s ∈ σ.stms c) (hd : d ∈ (σ.kind s).blocks) :
      Below σ b d

/-- **The block `b` hangs together**: what stands in a block has it as its
parent, and the nested blocks are in `func->blocks`. -/
structure Consistent (σ : Listed M) (b : ℕ) : Prop where
  parent : ∀ c, Below σ.tables b c → ∀ s ∈ σ.tables.stms c, σ.tables.parent s = c
  nested : ∀ c, Below σ.tables b c → ∀ s ∈ σ.tables.stms c, ∀ d ∈ (σ.tables.kind s).blocks,
    (σ.tables.func.block d).parent = some c
  listed : ∀ c, Below σ.tables b c → ∀ s ∈ σ.tables.stms c, ∀ d ∈ (σ.tables.kind s).blocks,
    d ∈ σ.blocks

/-- **No statement is kept that stands in the block of a lifted one**, but in
what is deleted. `lifted` is whether these statements do. -/
def Coins.Flat (coins : Coins) : Bool → Stms ℕ ℕ → Prop
  | _, .nil => True
  | lifted, .leaf _ rest => coins.Flat lifted rest
  | lifted, .ifElse s _ _ T E rest =>
    (match coins.verdict s with
      | .delete => True
      | .lift => coins.Flat true T ∧ coins.Flat true E
      | .keep => lifted = false ∧ coins.Flat false T ∧ coins.Flat false E) ∧ coins.Flat lifted rest
  | lifted, .forLoop s _ B rest =>
    (match coins.verdict s with
      | .delete => True
      | .lift => coins.Flat true B
      | .keep => lifted = false ∧ coins.Flat false B) ∧ coins.Flat lifted rest

/-! ## What is left of a section -/

/-- The compound statements that are left. -/
def Coins.left (coins : Coins) : Stms ℕ ℕ → Stms ℕ ℕ
  | .nil => .nil
  | .leaf _ rest => coins.left rest
  | .ifElse s t e T E rest =>
    match coins.verdict s with
    | .delete => coins.left rest
    | .lift => coins.left T ++ (coins.left E ++ coins.left rest)
    | .keep => .ifElse s t e (coins.left T) (coins.left E) (coins.left rest)
  | .forLoop s b B rest =>
    match coins.verdict s with
    | .delete => coins.left rest
    | .lift => coins.left B ++ coins.left rest
    | .keep => .forLoop s b (coins.left B) (coins.left rest)

/-- The statements of a block after the blocks in them are pruned. -/
def Coins.walked (coins : Coins) : Stms ℕ ℕ → Stms ℕ ℕ
  | .nil => .nil
  | .leaf _ rest => coins.walked rest
  | .ifElse s t e T E rest => .ifElse s t e (coins.left T) (coins.left E) (coins.walked rest)
  | .forLoop s b B rest => .forLoop s b (coins.left B) (coins.walked rest)

/-- The blocks of the statements that are kept. -/
def Coins.keptBlocks (coins : Coins) : Stms ℕ ℕ → List ℕ
  | .nil => []
  | .leaf _ rest => coins.keptBlocks rest
  | .ifElse s t e T E rest =>
    (if coins.verdict s = .keep then [t, e] else []) ++
      (coins.keptBlocks T ++ (coins.keptBlocks E ++ coins.keptBlocks rest))
  | .forLoop s b B rest =>
    (if coins.verdict s = .keep then [b] else []) ++
      (coins.keptBlocks B ++ coins.keptBlocks rest)

/-- The blocks of the others. -/
def Coins.goneBlocks (coins : Coins) : Stms ℕ ℕ → List ℕ
  | .nil => []
  | .leaf _ rest => coins.goneBlocks rest
  | .ifElse s t e T E rest =>
    (if coins.verdict s = .keep then [] else [t, e]) ++
      (coins.goneBlocks T ++ (coins.goneBlocks E ++ coins.goneBlocks rest))
  | .forLoop s b B rest =>
    (if coins.verdict s = .keep then [] else [b]) ++
      (coins.goneBlocks B ++ coins.goneBlocks rest)

namespace Pruning

/-- The blocks of a list have the block of its statements as parent. -/
def Hangs (σ : Pruning M) : ℕ → Stms ℕ ℕ → Prop
  | _, .nil => True
  | b, .leaf _ rest => σ.Hangs b rest
  | b, .ifElse _ t e T E rest =>
    (σ.func.block t).parent = some b ∧ (σ.func.block e).parent = some b ∧
      σ.Hangs t T ∧ σ.Hangs e E ∧ σ.Hangs b rest
  | b, .forLoop _ c B rest =>
    (σ.func.block c).parent = some b ∧ σ.Hangs c B ∧ σ.Hangs b rest

end Pruning

section Trees

variable {σ : Pruning M} {coins : Coins} {T U : Stms ℕ ℕ} {b c : ℕ}

theorem Pruning.Placed.hangs (h : σ.Placed b T) : σ.Hangs b T := by
  induction T generalizing b with
  | nil => trivial
  | leaf s rest ih => exact ih h
  | ifElse s t e T E rest ihT ihE ih =>
    obtain ⟨⟨ht, -⟩, ⟨he, -⟩, hT, hE, hrest⟩ := h
    exact ⟨ht, he, ihT hT, ihE hE, ih hrest⟩
  | forLoop s c B rest ihB ih =>
    obtain ⟨⟨hc, -⟩, hB, hrest⟩ := h
    exact ⟨hc, ihB hB, ih hrest⟩

theorem Pruning.hangs_append : σ.Hangs b (T ++ U) ↔ σ.Hangs b T ∧ σ.Hangs b U := by
  induction T with
  | nil => exact (and_iff_right trivial).symm
  | leaf s rest ih => exact ih
  | ifElse s t e T E rest _ _ ih => simp only [Stms.ifElse_append, Pruning.Hangs, ih, and_assoc]
  | forLoop s c B rest _ ih => simp only [Stms.forLoop_append, Pruning.Hangs, ih, and_assoc]

/-- **What is left of a block hangs in the block it has come to**, just where
nothing that is kept has moved. -/
theorem hangs_left_iff (hp : σ.func.ParentLt) (hT : σ.Hangs c T) (hbc : b ≤ c) :
    σ.Hangs b (coins.left T) ↔ coins.Flat (decide (b ≠ c)) T := by
  induction T generalizing b c with
  | nil => exact Iff.rfl
  | leaf s rest ih => exact ih hT hbc
  | ifElse s t e T E rest ihT ihE ih =>
    obtain ⟨ht, he, hT, hE, hrest⟩ := hT
    have hct := hp t c ht
    have hce := hp e c he
    have hrest := ih hrest hbc
    cases hv : coins.verdict s with
    | delete => simp only [Coins.left, Coins.Flat, hv, hrest, true_and]
    | lift =>
      -- a branch is made after its block, so that what is lifted out of it has moved
      have hbt : decide (b ≠ t) = true := decide_eq_true (by omega)
      have hbe : decide (b ≠ e) = true := decide_eq_true (by omega)
      have hT := ihT hT (b := b) (by omega)
      have hE := ihE hE (b := b) (by omega)
      rw [hbt] at hT
      rw [hbe] at hE
      simp only [Coins.left, Coins.Flat, hv, Pruning.hangs_append, hT, hE, hrest, and_assoc]
    | keep =>
      have htt := ihT hT (le_refl t)
      have hee := ihE hE (le_refl e)
      simp only [ne_eq, not_true_eq_false, decide_false] at htt hee
      simp only [Coins.left, Coins.Flat, hv, Pruning.Hangs, ht, he, htt, hee, hrest,
        Option.some.injEq, decide_eq_false_iff_not, not_not]
      rw [eq_comm]
      tauto
  | forLoop s d B rest ihB ih =>
    obtain ⟨hd, hB, hrest⟩ := hT
    have hcd := hp d c hd
    have hrest := ih hrest hbc
    cases hv : coins.verdict s with
    | delete => simp only [Coins.left, Coins.Flat, hv, hrest, true_and]
    | lift =>
      have hbd : decide (b ≠ d) = true := decide_eq_true (by omega)
      have hB := ihB hB (b := b) (by omega)
      rw [hbd] at hB
      simp only [Coins.left, Coins.Flat, hv, Pruning.hangs_append, hB, hrest]
    | keep =>
      have hdd := ihB hB (le_refl d)
      simp only [ne_eq, not_true_eq_false, decide_false] at hdd
      simp only [Coins.left, Coins.Flat, hv, Pruning.Hangs, hd, hdd, hrest,
        Option.some.injEq, decide_eq_false_iff_not, not_not]
      rw [eq_comm]
      tauto

theorem left_blocks_subset (coins : Coins) (T : Stms ℕ ℕ) :
    (coins.left T).blocks ⊆ coins.keptBlocks T := by
  induction T with
  | nil => exact List.Subset.refl _
  | leaf s rest ih => exact ih
  | ifElse s t e T E rest ihT ihE ih =>
    cases hv : coins.verdict s <;>
      simp only [Coins.left, Coins.keptBlocks, hv, Stms.blocks_append, Stms.blocks] <;> grind
  | forLoop s c B rest ihB ih =>
    cases hv : coins.verdict s <;>
      simp only [Coins.left, Coins.keptBlocks, hv, Stms.blocks_append, Stms.blocks] <;> grind

/-- Each block is of one statement. -/
theorem keptBlocks_append_goneBlocks (coins : Coins) (T : Stms ℕ ℕ) :
    (coins.keptBlocks T ++ coins.goneBlocks T).Perm T.blocks := by
  rw [← Multiset.coe_eq_coe, ← Multiset.coe_add]
  induction T with
  | nil => rfl
  | leaf s rest ih => exact ih
  | ifElse s t e T E rest ihT ihE ih =>
    simp only [Coins.keptBlocks, Coins.goneBlocks, Stms.blocks, ← Multiset.coe_add,
      ← Multiset.cons_coe, ← ihT, ← ihE, ← ih]
    by_cases hv : coins.verdict s = .keep
    · simp only [hv, if_true, ← Multiset.cons_coe, Multiset.coe_nil, ← Multiset.singleton_add]
      abel
    · simp only [hv, if_false, ← Multiset.cons_coe, Multiset.coe_nil, ← Multiset.singleton_add]
      abel
  | forLoop s c B rest ihB ih =>
    simp only [Coins.keptBlocks, Coins.goneBlocks, Stms.blocks, ← Multiset.coe_add,
      ← Multiset.cons_coe, ← ihB, ← ih]
    by_cases hv : coins.verdict s = .keep
    · simp only [hv, if_true, ← Multiset.cons_coe, Multiset.coe_nil, ← Multiset.singleton_add]
      abel
    · simp only [hv, if_false, ← Multiset.cons_coe, Multiset.coe_nil, ← Multiset.singleton_add]
      abel

end Trees

/-! ## What the parts of pruning leave alone -/

namespace Pruning

variable {σ σ' σ'' : Pruning M} {b c s n k : ℕ} {A B : List ℕ}

/-- **A statement stands once**, in its parent, and not where it is deleted. Pruning
keeps it so, whatever it deletes and lifts. -/
structure Good (σ : Pruning M) : Prop where
  nodup : ∀ c, (σ.stms c).Nodup
  parent : ∀ c, ∀ s ∈ σ.stms c, σ.parent s = c
  gone : ∀ c d, ∀ s ∈ σ.deleted c, s ∉ σ.stms d

/-- The statements of `c` that have blocks. -/
def heads (σ : Pruning M) (c : ℕ) : List ℕ :=
  (σ.stms c).filter fun s => decide ((σ.kind s).blocks ≠ [])

theorem mem_heads : s ∈ σ.heads c ↔ s ∈ σ.stms c ∧ (σ.kind s).blocks ≠ [] := by
  rw [heads, List.mem_filter, decide_eq_true_iff]

/-- **Only the blocks `A` have other statements with blocks.** What becomes of the
leaves is left open, as they hold no others. -/
structure Calm (A : List ℕ) (σ σ' : Pruning M) : Prop where
  kind : ∀ s, σ'.kind s = σ.kind s
  parent : ∀ b, (σ'.func.block b).parent = (σ.func.block b).parent
  edges : σ'.edges ⊆ σ.edges
  good : σ.Good → σ'.Good
  heads : ∀ c, c ∉ A → σ'.heads c = σ.heads c

theorem Calm.refl (A : List ℕ) (σ : Pruning M) : Calm A σ σ :=
  ⟨fun _ => rfl, fun _ => rfl, List.Subset.refl _, id, fun _ _ => rfl⟩

theorem Calm.trans (h : Calm A σ σ') (h' : Calm A σ' σ'') : Calm A σ σ'' where
  kind s := (h'.kind s).trans (h.kind s)
  parent b := (h'.parent b).trans (h.parent b)
  edges := List.Subset.trans h'.edges h.edges
  good hg := h'.good (h.good hg)
  heads c hc := (h'.heads c hc).trans (h.heads c hc)

theorem Calm.mono (h : Calm A σ σ') (hAB : A ⊆ B) : Calm B σ σ' :=
  ⟨h.kind, h.parent, h.edges, h.good, fun c hc => h.heads c fun hA => hc (hAB hA)⟩

theorem Calm.stms (h : Calm A σ σ') (hc : c ∉ A) (hs : (σ.kind s).blocks ≠ []) :
    s ∈ σ'.stms c ↔ s ∈ σ.stms c := by
  have hmem : s ∈ σ'.heads c ↔ s ∈ σ.heads c := by rw [h.heads c hc]
  rw [mem_heads, mem_heads, h.kind] at hmem
  simpa [hs] using hmem

theorem Calm.chain (h : Calm A σ σ') (b : ℕ) : σ'.func.chain b = σ.func.chain b := by
  have hfrom : ∀ n b, σ'.func.chainFrom n b = σ.func.chainFrom n b := by
    intro n
    induction n with
    | zero => exact fun _ => rfl
    | succ n ih =>
      intro b
      unfold Func.chainFrom
      rw [h.parent b]
      cases (σ.func.block b).parent with
      | none => rfl
      | some p => simp only [ih p]
  exact hfrom _ b

section Induct

variable {R : Pruning M → Pruning M → Prop} (hrefl : ∀ σ, R σ σ)
  (htrans : ∀ {σ σ' σ''}, R σ σ' → R σ' σ'' → R σ σ'')
  (herase : ∀ σ b s, R σ (σ.eraseStmt b s))
  (hedges : ∀ (σ : Pruning M) E, R σ { σ with edges := E })

include hrefl htrans hedges

theorem removeJumps_induct {rm : ℕ → ℕ → Pruning M → Pruning M} (hrm : ∀ b s σ, R σ (rm b s σ))
    (m : ℕ) : R σ (removeJumps rm n s m σ) := by
  induction m generalizing σ with
  | zero => exact hrefl σ
  | succ m ih =>
    rw [removeJumps]
    split
    · exact hrefl σ
    · exact htrans (htrans (hedges σ _) (hrm _ _ _)) ih

include herase

/-- **What every removal does** holds of `remove_stmt`. -/
theorem removeStmtFrom_induct : R σ (removeStmtFrom n k b s σ) := by
  induction k generalizing σ b s with
  | zero => exact hrefl σ
  | succ k ih =>
    have hjumps : ∀ m τ, R τ (removeJumps (removeStmtFrom n k) n s m τ) := fun m _ =>
      removeJumps_induct hrefl htrans hedges (fun _ _ _ => ih) m
    exact htrans (htrans (hedges σ _) (hjumps _ _)) (herase _ b s)

end Induct

theorem eraseStmt_good (h : σ.Good) : (σ.eraseStmt b s).Good := by
  by_cases hs : s ∈ σ.stms b
  · have hstms := eraseStmt_stms hs
    have hmem : ∀ c, ∀ t ∈ (σ.eraseStmt b s).stms c, t ∈ σ.stms c ∧ t ≠ s := by
      intro c t ht
      rw [hstms] at ht
      split at ht
      · next hc =>
        subst hc
        exact ((h.nodup c).mem_erase_iff.mp ht).symm
      · next hc =>
        refine ⟨ht, ?_⟩
        rintro rfl
        exact hc ((h.parent c t ht).symm.trans (h.parent b t hs))
    have hparent : ∀ t, (σ.eraseStmt b s).parent t = σ.parent t := by
      intro t
      unfold eraseStmt
      rw [if_pos hs]
      rfl
    refine ⟨fun c => ?_, fun c t ht => ?_, fun c d t ht htd => ?_⟩
    · rw [hstms]
      split
      · exact (h.nodup b).erase s
      · exact h.nodup c
    · rw [hparent]
      exact h.parent c t (hmem c t ht).1
    · obtain ⟨htd', hne⟩ := hmem d t htd
      unfold eraseStmt at ht
      rw [if_pos hs] at ht
      by_cases hc : c = b
      · subst hc
        simp only [Function.update_self, List.mem_append, List.mem_singleton] at ht
        exact h.gone c d t (ht.resolve_right hne) htd'
      · simp only [Function.update_of_ne hc] at ht
        exact h.gone c d t ht htd'
  · unfold eraseStmt
    rwa [if_neg hs]

theorem removeStmtFrom_good (h : σ.Good) : (removeStmtFrom n k b s σ).Good :=
  removeStmtFrom_induct (R := fun σ σ' => σ.Good → σ'.Good) (fun _ h => h)
    (fun h h' hg => h' (h hg)) (fun _ _ _ h => eraseStmt_good h)
    (fun _ _ h => ⟨h.nodup, h.parent, h.gone⟩) h

theorem not_mem_eraseStmt (h : σ.Good) : s ∉ (σ.eraseStmt b s).stms b := by
  by_cases hs : s ∈ σ.stms b
  · rw [eraseStmt_stms hs, if_pos rfl]
    exact (h.nodup b).not_mem_erase
  · unfold eraseStmt
    rwa [if_neg hs]

/-- The statement itself is not there any more. -/
theorem not_mem_removeStmt (h : σ.Good) : s ∉ (σ.removeStmt n b s).stms b := by
  refine not_mem_eraseStmt (removeJumps_induct (R := fun σ σ' => σ.Good → σ'.Good) (fun _ h => h)
    (fun h h' hg => h' (h hg)) (fun _ _ h => ⟨h.nodup, h.parent, h.gone⟩)
    (fun _ _ _ h => removeStmtFrom_good h) _ ⟨h.nodup, h.parent, h.gone⟩)

theorem removeStmt_parent (σ : Pruning M) (n b s c : ℕ) :
    ((σ.removeStmt n b s).func.block c).parent = (σ.func.block c).parent :=
  removeStmtFrom_induct
    (R := fun σ σ' : Pruning M => (σ'.func.block c).parent = (σ.func.block c).parent)
    (fun _ => rfl) (fun h h' => h'.trans h) (fun σ b s => (eraseStmt_frame σ b s).parent c)
    (fun _ _ => rfl)

/-- The gotos of a function are statements without blocks. -/
def Gotos (σ : Pruning M) : Prop := ∀ e ∈ σ.edges, (σ.kind e.1).blocks = []

theorem Gotos.calm (h : σ.Gotos) (hc : Calm A σ σ') : σ'.Gotos := fun e he => by
  rw [hc.kind]
  exact h e (hc.edges he)

/-- What `remove_stmt` of `s` leaves of the statements with blocks. -/
theorem mem_removeStmt_iff (hg : σ.Good) (he : σ.Gotos) {t : ℕ} (ht : (σ.kind t).blocks ≠ [])
    (hs : (σ.kind s).blocks ≠ [] → ∀ d, s ∈ σ.stms d → d = b) :
    t ∈ (σ.removeStmt n b s).stms c ↔ t ∈ σ.stms c ∧ t ≠ s := by
  have hr : Removal (Falls σ.edges (fun _ => True) s) σ (σ.removeStmt n b s) :=
    removeStmt_removal (List.Subset.refl _) he fun _ _ => trivial
  constructor
  · intro hmem
    refine ⟨(hr.sub c).subset hmem, ?_⟩
    rintro rfl
    -- it has gone from its own block, and stood in no other
    obtain rfl := hs ht c ((hr.sub c).subset hmem)
    exact not_mem_removeStmt hg hmem
  · rintro ⟨hmem, hne⟩
    refine (hr.keep c [t] (List.singleton_sublist.mpr hmem) ?_).subset (List.mem_singleton_self t)
    rintro x hx (rfl | ⟨d, -, hlead⟩)
    · exact hne (List.mem_singleton.mp hx).symm
    · obtain rfl := List.mem_singleton.mp hx
      obtain ⟨e, hedge⟩ := exists_edge_of_leads hlead
      exact ht (he _ hedge)

/-- Statements go from a block, but none that has blocks. -/
theorem heads_of_sublist (hkind : ∀ s, σ'.kind s = σ.kind s)
    (hsub : (σ'.stms c).Sublist (σ.stms c))
    (hmem : ∀ t ∈ σ.stms c, (σ.kind t).blocks ≠ [] → t ∈ σ'.stms c) (hn : (σ.stms c).Nodup) :
    σ'.heads c = σ.heads c := by
  have hfilter : σ'.heads c = (σ'.stms c).filter fun s => decide ((σ.kind s).blocks ≠ []) := by
    simp only [heads, hkind]
  rw [hfilter, heads]
  refine (hsub.filter _).eq_of_length_le ?_
  refine (List.subperm_of_subset (hn.filter _) fun t ht => ?_).length_le
  obtain ⟨ht, hblocks⟩ := List.mem_filter.mp ht
  exact List.mem_filter.mpr ⟨hmem t ht (of_decide_eq_true hblocks), hblocks⟩

theorem removeStmt_calm (hg : σ.Good) (he : σ.Gotos)
    (hs : (σ.kind s).blocks ≠ [] → ∀ d, s ∈ σ.stms d → d = b) :
    Calm [b] σ (σ.removeStmt n b s) := by
  have hr : Removal (Falls σ.edges (fun _ => True) s) σ (σ.removeStmt n b s) :=
    removeStmt_removal (List.Subset.refl _) he fun _ _ => trivial
  refine ⟨hr.kind, removeStmt_parent σ n b s, hr.edges, removeStmtFrom_good, fun c hc => ?_⟩
  refine heads_of_sublist hr.kind (hr.sub c) (fun t hmem ht => ?_) (hg.nodup c)
  refine (mem_removeStmt_iff hg he ht hs).mpr ⟨hmem, ?_⟩
  rintro rfl
  exact hc (List.mem_singleton.mpr (hs ht c hmem))

/-- A statement without blocks takes along none that has some. -/
theorem removeStmt_calm_of_leaf (hg : σ.Good) (he : σ.Gotos) (hs : (σ.kind s).blocks = []) :
    Calm [] σ (σ.removeStmt n b s) := by
  have hcalm : Calm [b] σ (σ.removeStmt n b s) := removeStmt_calm hg he fun h => absurd hs h
  have hr : Removal (Falls σ.edges (fun _ => True) s) σ (σ.removeStmt n b s) :=
    removeStmt_removal (List.Subset.refl _) he fun _ _ => trivial
  refine ⟨hcalm.kind, hcalm.parent, hcalm.edges, hcalm.good, fun c _ => ?_⟩
  refine heads_of_sublist hr.kind (hr.sub c) (fun t hmem ht => ?_) (hg.nodup c)
  refine (mem_removeStmt_iff hg he ht fun h => absurd hs h).mpr ⟨hmem, ?_⟩
  rintro rfl
  exact ht hs

theorem removeStmts_calm_of_leaf {del : List ℕ} (hg : σ.Good) (he : σ.Gotos)
    (hdel : ∀ s ∈ del, (σ.kind s).blocks = []) : Calm [] σ (σ.removeStmts n b del) := by
  induction del generalizing σ with
  | nil => exact .refl _ _
  | cons s del ih =>
    have hcalm : Calm [] σ (σ.removeStmt n b s) :=
      removeStmt_calm_of_leaf hg he (hdel s List.mem_cons_self)
    refine hcalm.trans (ih (hcalm.good hg) (he.calm hcalm) fun t ht => ?_)
    rw [hcalm.kind]
    exact hdel t (List.mem_cons_of_mem _ ht)

theorem blocks_of_isBreakContinue {K : Kind M} (h : isBreakContinue K = true) : K.blocks = [] := by
  cases K with
  | brk test => rfl
  | cont test => rfl
  | _ => cases h

theorem clearBranches_calm {clear : ℕ → Pruning M → Option (Pruning M)}
    (hclear : ∀ (σ : Pruning M) c σ', σ.Good → σ.Gotos → clear c σ = some σ' → Calm [] σ σ')
    {live l : List ℕ} (hg : σ.Good) (he : σ.Gotos)
    (hrun : clearBranches clear b live l σ = some σ') : Calm [] σ σ' := by
  induction l generalizing σ with
  | nil =>
    cases hrun
    exact .refl _ _
  | cons s l ih =>
    rw [clearBranches] at hrun
    split at hrun
    · next t e _ =>
      simp only [Option.bind_eq_bind, Option.bind_eq_some_iff] at hrun
      obtain ⟨σ₁, h₁, σ₂, h₂, -, -, hrest⟩ := hrun
      have hc₁ := hclear σ t σ₁ hg he h₁
      have hc₂ := hclear σ₁ e σ₂ (hc₁.good hg) (he.calm hc₁) h₂
      have hc := hc₁.trans hc₂
      exact hc.trans (ih (hc.good hg) (he.calm hc) hrest)
    · exact ih hg he hrun

/-- **`RemoveBreakContinue`** removes no statement that has blocks. -/
theorem removeBreakContinue_calm (hg : σ.Good) (he : σ.Gotos)
    (hrun : σ.removeBreakContinue n b = some σ') : Calm [] σ σ' := by
  induction n generalizing σ b σ' with
  | zero => cases hrun
  | succ n ih =>
    rw [removeBreakContinue] at hrun
    simp only [Option.bind_eq_bind, Option.bind_eq_some_iff, Option.some.injEq] at hrun
    obtain ⟨σ₁, hclear, rfl⟩ := hrun
    have hc := clearBranches_calm (fun σ c σ' hg he h => ih hg he h) hg he hclear
    refine hc.trans (removeStmts_calm_of_leaf (hc.good hg) (he.calm hc) fun s hs => ?_)
    rw [hc.kind]
    exact blocks_of_isBreakContinue (List.mem_filter.mp hs).2

section Merge

variable {position : ℕ}

/-- What moves has the block it comes to as its parent. -/
theorem mergeBlock_good (hg : σ.Good) (hbc : b ≠ c) : (σ.mergeBlock position b c).1.Good := by
  have hparent : ∀ t, (σ.mergeBlock position b c).1.parent t =
      if t ∈ σ.stms c ++ σ.deleted c then b else σ.parent t := by
    intro t
    unfold parent mergeBlock
    by_cases hm : t ∈ σ.stms c ++ σ.deleted c <;> simp [hm]
  refine ⟨fun d => ?_, fun d t ht => ?_, fun d d' t ht htd => ?_⟩
  · rw [mergeBlock_stms hbc]
    split
    · exact List.nodup_nil
    · split
      · have hdis : List.Disjoint (σ.stms b) (σ.stms c) := fun t htb htc =>
          hbc ((hg.parent b t htb).symm.trans (hg.parent c t htc))
        -- the statements of both blocks, in another order
        have hperm : ((σ.stms b).take position ++ σ.stms c ++ (σ.stms b).drop position).Perm
            (σ.stms b ++ σ.stms c) := by
          rw [← Multiset.coe_eq_coe]
          conv_rhs => rw [← List.take_append_drop position (σ.stms b)]
          simp only [← Multiset.coe_add]
          abel
        exact hperm.nodup_iff.mpr (List.nodup_append'.mpr ⟨hg.nodup b, hg.nodup c, hdis⟩)
      · exact hg.nodup d
  · obtain ⟨hdc, hmem⟩ := (mem_mergeBlock hbc d t).mp ht
    rw [hparent]
    rcases hmem with hmem | ⟨rfl, hmem⟩
    · have hmoved : t ∈ σ.stms c ++ σ.deleted c → b = d := by
        intro hm
        rcases List.mem_append.mp hm with hm | hm
        · exact absurd ((hg.parent d t hmem).symm.trans (hg.parent c t hm)) hdc
        · exact absurd hmem (hg.gone c d t hm)
      split
      · next hm => exact hmoved hm
      · exact hg.parent d t hmem
    · rw [if_pos (List.mem_append_left _ hmem)]
  · obtain ⟨-, hmem⟩ := (mem_mergeBlock hbc d' t).mp htd
    have hold : ∃ d, t ∈ σ.deleted d := by
      change t ∈ Function.update (Function.update σ.deleted b (σ.deleted b ++ σ.deleted c)) c [] d
        at ht
      by_cases hdc : d = c
      · subst hdc
        rw [Function.update_self] at ht
        cases ht
      · rw [Function.update_of_ne hdc] at ht
        by_cases hdb : d = b
        · subst hdb
          rw [Function.update_self] at ht
          exact (List.mem_append.mp ht).elim (fun h => ⟨_, h⟩) fun h => ⟨_, h⟩
        · rw [Function.update_of_ne hdb] at ht
          exact ⟨_, ht⟩
    obtain ⟨d₀, hd₀⟩ := hold
    rcases hmem with hmem | ⟨-, hmem⟩
    · exact hg.gone d₀ d' t hd₀ hmem
    · exact hg.gone d₀ c t hd₀ hmem

theorem mergeBlock_calm (hbc : b ≠ c) : Calm [b, c] σ (σ.mergeBlock position b c).1 := by
  have hframe : Frame [b, c] σ (σ.mergeBlock position b c).1 := mergeBlock_frame hbc
  refine ⟨hframe.kind, hframe.parent, by rw [hframe.edges]; exact List.Subset.refl _,
    fun hg => mergeBlock_good hg hbc, fun d hd => ?_⟩
  simp only [heads, hframe.stms d hd, hframe.kind]

end Merge

/-- Blocks hang where they are as long as their parents are the same. -/
theorem Hangs.calm {T : Stms ℕ ℕ} (h : σ.Hangs c T) (hc : Calm A σ σ') : σ'.Hangs c T := by
  induction T generalizing c with
  | nil => trivial
  | leaf s rest ih => exact ih h
  | ifElse s t e T E rest ihT ihE ih =>
    obtain ⟨ht, he, hT, hE, hrest⟩ := h
    exact ⟨(hc.parent t).trans ht, (hc.parent e).trans he, ihT hT, ihE hE, ih hrest⟩
  | forLoop s d B rest ihB ih =>
    obtain ⟨hd, hB, hrest⟩ := h
    exact ⟨(hc.parent d).trans hd, ihB hB, ih hrest⟩

/-! ## The statements with blocks -/

/-- The statements of `c` that have blocks are those of the list. -/
def Heads (σ : Pruning M) (c : ℕ) (T : Stms ℕ ℕ) : Prop :=
  ∀ s, s ∈ σ.stms c ∧ (σ.kind s).blocks ≠ [] ↔ s ∈ T.roots

/-- They are in this order in every block. -/
def InOrder (σ : Pruning M) : Stms ℕ ℕ → Prop
  | .nil => True
  | .leaf _ rest => σ.InOrder rest
  | .ifElse _ t e T E rest =>
    (σ.heads t = T.roots ∧ σ.InOrder T) ∧ (σ.heads e = E.roots ∧ σ.InOrder E) ∧ σ.InOrder rest
  | .forLoop _ b B rest => (σ.heads b = B.roots ∧ σ.InOrder B) ∧ σ.InOrder rest

/-- **The statements with blocks and theirs are a tree**: that of `T`, from which the
leaves are gone. -/
def Shape (σ : Pruning M) : Stms ℕ ℕ → Prop
  | .nil => True
  | .leaf _ _ => False
  | .ifElse s t e T E rest =>
    (∃ test, σ.kind s = .ifElse test t e) ∧ (σ.Heads t T ∧ σ.Shape T) ∧ (σ.Heads e E ∧ σ.Shape E) ∧
      σ.Shape rest
  | .forLoop s b B rest =>
    (∃ init test incr, σ.kind s = .forLoop init test incr b) ∧ (σ.Heads b B ∧ σ.Shape B) ∧
      σ.Shape rest

section Shape

variable {T E U : Stms ℕ ℕ}

theorem Heads.calm (h : σ.Heads c T) (hc : Calm A σ σ') (hA : c ∉ A) : σ'.Heads c T := by
  intro s
  rw [← h s, hc.kind]
  exact and_congr_left fun hs => hc.stms hA hs

theorem heads_of_eq (h : σ.heads c = T.roots) : σ.Heads c T := fun s => by
  rw [← mem_heads, h]

theorem InOrder.calm (h : σ.InOrder T) (hc : Calm A σ σ') (hA : ∀ c ∈ T.blocks, c ∉ A) :
    σ'.InOrder T := by
  induction T with
  | nil => trivial
  | leaf s rest ih => exact ih h hA
  | ifElse s t e T E rest ihT ihE ih =>
    obtain ⟨⟨ht, hT⟩, ⟨he, hE⟩, hrest⟩ := h
    simp only [Stms.blocks, List.mem_append, List.mem_cons] at hA
    exact ⟨⟨(hc.heads t (hA t (by simp))).trans ht, ihT hT fun d hd => hA d (by simp [hd])⟩,
      ⟨(hc.heads e (hA e (by simp))).trans he, ihE hE fun d hd => hA d (by simp [hd])⟩,
      ih hrest fun d hd => hA d (by simp [hd])⟩
  | forLoop s b B rest ihB ih =>
    obtain ⟨⟨hb, hB⟩, hrest⟩ := h
    simp only [Stms.blocks, List.mem_append, List.mem_cons] at hA
    exact ⟨⟨(hc.heads b (hA b (by simp))).trans hb, ihB hB fun d hd => hA d (by simp [hd])⟩,
      ih hrest fun d hd => hA d (by simp [hd])⟩

theorem Shape.calm (h : σ.Shape T) (hc : Calm A σ σ') (hA : ∀ c ∈ T.blocks, c ∉ A) :
    σ'.Shape T := by
  induction T with
  | nil => trivial
  | leaf s rest => exact h
  | ifElse s t e T E rest ihT ihE ih =>
    obtain ⟨hkind, ⟨ht, hT⟩, ⟨he, hE⟩, hrest⟩ := h
    simp only [Stms.blocks, List.mem_append, List.mem_cons] at hA
    exact ⟨hkind.imp fun _ h => (hc.kind s).trans h,
      ⟨ht.calm hc (hA t (by simp)), ihT hT fun d hd => hA d (by simp [hd])⟩,
      ⟨he.calm hc (hA e (by simp)), ihE hE fun d hd => hA d (by simp [hd])⟩,
      ih hrest fun d hd => hA d (by simp [hd])⟩
  | forLoop s b B rest ihB ih =>
    obtain ⟨⟨i, t, r, hkind⟩, ⟨hb, hB⟩, hrest⟩ := h
    simp only [Stms.blocks, List.mem_append, List.mem_cons] at hA
    exact ⟨⟨i, t, r, (hc.kind s).trans hkind⟩,
      ⟨hb.calm hc (hA b (by simp)), ihB hB fun d hd => hA d (by simp [hd])⟩,
      ih hrest fun d hd => hA d (by simp [hd])⟩

theorem shape_append : σ.Shape (T ++ U) ↔ σ.Shape T ∧ σ.Shape U := by
  induction T with
  | nil => exact (and_iff_right trivial).symm
  | leaf s rest => exact (false_and _).symm ▸ Iff.rfl
  | ifElse s t e T E rest _ _ ih => simp only [Stms.ifElse_append, Shape, ih, and_assoc]
  | forLoop s b B rest _ ih => simp only [Stms.forLoop_append, Shape, ih, and_assoc]

/-- The roots have blocks. -/
theorem Shape.blocks_ne_nil (h : σ.Shape T) : ∀ s ∈ T.roots, (σ.kind s).blocks ≠ [] := by
  induction T with
  | nil => exact fun _ h => nomatch h
  | leaf s rest => exact h.elim
  | ifElse s t e T E rest _ _ ih =>
    obtain ⟨⟨test, hkind⟩, -, -, hrest⟩ := h
    intro u hu
    rcases List.mem_cons.mp hu with rfl | hu
    · rw [hkind]
      exact List.cons_ne_nil _ _
    · exact ih hrest u hu
  | forLoop s b B rest _ ih =>
    obtain ⟨⟨i, t, r, hkind⟩, -, hrest⟩ := h
    intro u hu
    rcases List.mem_cons.mp hu with rfl | hu
    · rw [hkind]
      exact List.cons_ne_nil _ _
    · exact ih hrest u hu

end Shape

section Lift

variable {coins : Coins} {R : Stms ℕ ℕ} {position : ℕ} {inLoop : Bool}

/-- One block lifted: nothing else but the block it comes to has changed. -/
theorem mem_mergeBlock_heads {T : Stms ℕ ℕ} (hbc : b ≠ c) (hT : σ.Heads c T) {u : ℕ}
    (hu : (σ.kind u).blocks ≠ []) :
    u ∈ (σ.mergeBlock position b c).1.stms b ↔ u ∈ σ.stms b ∨ u ∈ T.roots := by
  rw [mem_mergeBlock hbc, ← hT u]
  tauto

theorem left_subset (coins : Coins) (T : Stms ℕ ℕ) : (coins.left T).blocks ⊆ T.blocks :=
  fun _ hd => (keptBlocks_append_goneBlocks coins T).subset
    (List.mem_append_left _ (left_blocks_subset coins T hd))

theorem walked_subset (coins : Coins) (T : Stms ℕ ℕ) : (coins.walked T).blocks ⊆ T.blocks := by
  induction T with
  | nil => exact List.Subset.refl _
  | leaf s rest ih => exact ih
  | ifElse s t e T E rest _ _ ih =>
    have hT := left_subset coins T
    have hE := left_subset coins E
    simp only [Coins.walked, Stms.blocks]
    grind
  | forLoop s c B rest _ ih =>
    have hB := left_subset coins B
    simp only [Coins.walked, Stms.blocks]
    grind

/-- **The loop over the statements to be lifted** brings up what is left of
them. -/
theorem liftStms_left {lift : List ℕ} (hg : σ.Good) (he : σ.Gotos) (hR : σ.Shape (coins.walked R))
    (hn : (b :: R.blocks).Nodup)
    (hkeep : ∀ s ∈ (coins.walked R).roots, coins.verdict s = .keep → s ∈ σ.stms b)
    (hlift : lift = (coins.walked R).roots.filter fun s => decide (coins.verdict s = .lift))
    (hrun : liftStms n b inLoop lift position σ = some σ') :
    Calm (b :: R.blocks) σ σ' ∧ σ'.Shape (coins.left R) ∧
      ∀ u, (σ.kind u).blocks ≠ [] →
        (u ∈ σ'.stms b ↔ u ∈ σ.stms b ∨ u ∈ (coins.left R).roots) := by
  induction R generalizing σ position lift with
  | nil =>
    subst hlift
    cases hrun
    exact ⟨.refl _ _, trivial, fun u _ => by simp [Coins.left, Stms.roots]⟩
  | leaf s rest ih => exact ih hg he hR hn hkeep hlift hrun
  | ifElse s t e T E rest _ _ ih =>
    obtain ⟨⟨test, hkind⟩, ⟨ht, hT⟩, ⟨hE₀, hE⟩, hrest⟩ := hR
    simp only [Coins.walked, Stms.roots, List.mem_cons, forall_eq_or_imp] at hkeep hlift
    simp only [Stms.blocks] at hn ⊢
    have hTs := left_subset coins T
    have hEs := left_subset coins E
    have hrs := walked_subset coins rest
    have hrn : (b :: rest.blocks).Nodup := by grind
    cases hv : coins.verdict s with
    | delete =>
      rw [List.filter_cons_of_neg (by simp [hv])] at hlift
      obtain ⟨hcalm, hleft, hmem⟩ := ih hg he hrest hrn hkeep.2 hlift hrun
      simp only [Coins.left, hv]
      exact ⟨hcalm.mono (by grind), hleft, hmem⟩
    | keep =>
      rw [List.filter_cons_of_neg (by simp [hv])] at hlift
      obtain ⟨hcalm, hleft, hmem⟩ := ih hg he hrest hrn hkeep.2 hlift hrun
      simp only [Coins.left, hv]
      refine ⟨hcalm.mono (by grind), ⟨⟨test, (hcalm.kind s).trans hkind⟩,
        ⟨ht.calm hcalm (by grind), hT.calm hcalm (by grind)⟩,
        ⟨hE₀.calm hcalm (by grind), hE.calm hcalm (by grind)⟩, hleft⟩, fun u hu => ?_⟩
      rw [hmem u hu, Stms.roots, List.mem_cons]
      have hs := hkeep.1 hv
      constructor
      · tauto
      · rintro (h | rfl | h)
        · exact .inl h
        · exact .inl hs
        · exact .inr h
    | lift =>
      rw [List.filter_cons_of_pos (by simp [hv])] at hlift
      subst hlift
      rw [liftStms] at hrun
      simp only [Option.bind_eq_bind, Option.bind_eq_some_iff, hkind] at hrun
      obtain ⟨p, -, hrun⟩ := hrun
      have hbt : b ≠ t := by grind
      have hbe : b ≠ e := by grind
      have hte : t ≠ e := by grind
      -- the true block, and then the false block
      have hc₁ : Calm [b, t] σ (σ.mergeBlock p b t).1 := mergeBlock_calm hbt
      have hE₁ := hE₀.calm hc₁ (by grind)
      have hc₂ : Calm [b, e] (σ.mergeBlock p b t).1
          ((σ.mergeBlock p b t).1.mergeBlock (σ.mergeBlock p b t).2 b e).1 := mergeBlock_calm hbe
      generalize hσ₂ : ((σ.mergeBlock p b t).1.mergeBlock (σ.mergeBlock p b t).2 b e) =
        r at hrun hc₂
      have hc : Calm [b, t, e] σ r.1 := (hc₁.mono (by simp)).trans (hc₂.mono (by simp))
      have hmem₂ : ∀ u, (σ.kind u).blocks ≠ [] → (u ∈ r.1.stms b ↔
          (u ∈ σ.stms b ∨ u ∈ (coins.left T).roots) ∨ u ∈ (coins.left E).roots) := by
        intro u hu
        rw [← hσ₂, mem_mergeBlock_heads hbe hE₁ (by rwa [hc₁.kind]), mem_mergeBlock_heads hbt ht hu]
      have hrest₂ := hrest.calm hc (by grind)
      have hkeep₂ : ∀ u ∈ (coins.walked rest).roots, coins.verdict u = .keep → u ∈ r.1.stms b := by
        intro u hu huk
        exact (hmem₂ u (hrest.blocks_ne_nil u hu)).mpr (.inl (.inl (hkeep.2 u hu huk)))
      obtain ⟨hcalm, hleft, hmem⟩ := ih (hc.good hg) (he.calm hc) hrest₂ hrn hkeep₂ rfl hrun
      simp only [Coins.left, hv]
      refine ⟨(hc.mono (by grind)).trans (hcalm.mono (by grind)), ?_, fun u hu => ?_⟩
      · refine shape_append.mpr ⟨?_, shape_append.mpr ⟨?_, hleft⟩⟩
        · exact (hT.calm hc (by grind)).calm hcalm (by grind)
        · exact (hE.calm hc (by grind)).calm hcalm (by grind)
      · rw [hmem u (by rwa [hc.kind]), hmem₂ u hu]
        simp only [Stms.roots_append, List.mem_append]
        tauto
  | forLoop s c B rest _ ih =>
    obtain ⟨⟨i, cond, incr, hkind⟩, ⟨hc₀, hB⟩, hrest⟩ := hR
    simp only [Coins.walked, Stms.roots, List.mem_cons, forall_eq_or_imp] at hkeep hlift
    simp only [Stms.blocks] at hn ⊢
    have hBs := left_subset coins B
    have hrs := walked_subset coins rest
    have hrn : (b :: rest.blocks).Nodup := by grind
    cases hv : coins.verdict s with
    | delete =>
      rw [List.filter_cons_of_neg (by simp [hv])] at hlift
      obtain ⟨hcalm, hleft, hmem⟩ := ih hg he hrest hrn hkeep.2 hlift hrun
      simp only [Coins.left, hv]
      exact ⟨hcalm.mono (by grind), hleft, hmem⟩
    | keep =>
      rw [List.filter_cons_of_neg (by simp [hv])] at hlift
      obtain ⟨hcalm, hleft, hmem⟩ := ih hg he hrest hrn hkeep.2 hlift hrun
      simp only [Coins.left, hv]
      refine ⟨hcalm.mono (by grind), ⟨⟨i, cond, incr, (hcalm.kind s).trans hkind⟩,
        ⟨hc₀.calm hcalm (by grind), hB.calm hcalm (by grind)⟩, hleft⟩, fun u hu => ?_⟩
      rw [hmem u hu, Stms.roots, List.mem_cons]
      have hs := hkeep.1 hv
      constructor
      · tauto
      · rintro (h | rfl | h)
        · exact .inl h
        · exact .inl hs
        · exact .inr h
    | lift =>
      rw [List.filter_cons_of_pos (by simp [hv])] at hlift
      subst hlift
      rw [liftStms] at hrun
      simp only [Option.bind_eq_bind, Option.bind_eq_some_iff, hkind] at hrun
      obtain ⟨p, -, σ₁, hclear, -, -, hrun⟩ := hrun
      have hbc : b ≠ c := by grind
      have hc₁ : Calm [] σ σ₁ := by
        cases inLoop with
        | true =>
          cases hclear
          exact .refl _ _
        | false => exact removeBreakContinue_calm hg he hclear
      have hc₂ : Calm [b, c] σ₁ (σ₁.mergeBlock p b c).1 := mergeBlock_calm hbc
      have hcB := hc₀.calm hc₁ List.not_mem_nil
      generalize hσ₂ : σ₁.mergeBlock p b c = r at hrun hc₂
      have hc : Calm [b, c] σ r.1 := (hc₁.mono (by simp)).trans hc₂
      have hmem₂ : ∀ u, (σ.kind u).blocks ≠ [] → (u ∈ r.1.stms b ↔
          u ∈ σ.stms b ∨ u ∈ (coins.left B).roots) := by
        intro u hu
        rw [← hσ₂, mem_mergeBlock_heads hbc hcB (by rwa [hc₁.kind]),
          hc₁.stms List.not_mem_nil hu]
      have hrest₂ := hrest.calm hc (by grind)
      have hkeep₂ : ∀ u ∈ (coins.walked rest).roots, coins.verdict u = .keep → u ∈ r.1.stms b := by
        intro u hu huk
        exact (hmem₂ u (hrest.blocks_ne_nil u hu)).mpr (.inl (hkeep.2 u hu huk))
      obtain ⟨hcalm, hleft, hmem⟩ := ih (hc.good hg) (he.calm hc) hrest₂ hrn hkeep₂ rfl hrun
      simp only [Coins.left, hv]
      refine ⟨(hc.mono (by grind)).trans (hcalm.mono (by grind)), ?_, fun u hu => ?_⟩
      · exact shape_append.mpr ⟨(hB.calm hc (by grind)).calm hcalm (by grind), hleft⟩
      · rw [hmem u (by rwa [hc.kind]), hmem₂ u hu]
        simp only [Stms.roots_append, List.mem_append]
        tauto

end Lift

theorem removeStmts_calm {del : List ℕ} (hg : σ.Good) (he : σ.Gotos)
    (hdel : ∀ s ∈ del, (σ.kind s).blocks ≠ [] → ∀ d, s ∈ σ.stms d → d = b) :
    Calm [b] σ (σ.removeStmts n b del) ∧ ∀ c u, (σ.kind u).blocks ≠ [] →
      (u ∈ (σ.removeStmts n b del).stms c ↔ u ∈ σ.stms c ∧ u ∉ del) := by
  induction del generalizing σ with
  | nil => exact ⟨.refl _ _, fun c u _ => by simp [removeStmts]⟩
  | cons s del ih =>
    have hs := hdel s List.mem_cons_self
    have hcalm : Calm [b] σ (σ.removeStmt n b s) := removeStmt_calm hg he hs
    have hmem := fun c u (hu : (σ.kind u).blocks ≠ []) =>
      mem_removeStmt_iff (n := n) (c := c) hg he hu hs
    obtain ⟨hcalm₂, hmem₂⟩ := ih (hcalm.good hg) (he.calm hcalm) fun t ht hblocks d hd => by
      rw [hcalm.kind] at hblocks
      exact hdel t (List.mem_cons_of_mem _ ht) hblocks d ((hmem d t hblocks).mp hd).1
    refine ⟨hcalm.trans hcalm₂, fun c u hu => ?_⟩
    have hunfold : σ.removeStmts n b (s :: del) = (σ.removeStmt n b s).removeStmts n b del := rfl
    rw [hunfold, hmem₂ c u (by rwa [hcalm.kind]), hmem c u hu, List.mem_cons]
    tauto

end Pruning

end EMI

end CLSmith
