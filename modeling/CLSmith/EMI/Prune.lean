import CLSmith.EMI.Settle
import CLSmith.Goto.Wellformed
/-!
# Pruning leaves the rest of the program alone

`PruneEMISections` as the changes it makes to the tables of a function: a
statement of a section erased, or a block of one merged into a block around
it. Outside the sections the function stays as it was, and no statement
changes its sections. Where no goto leads into a section from outside, every
run of `PruneBlock` on a section is a chain of such changes.
-/

namespace CLSmith

namespace EMI

open Generate Generate.Func Common

variable {M : Type} {f f' : Func M} {E : List (ℕ × ℕ)} {σ σ' : Pruning M} {b c s : ℕ}

/-- The block is in no EMI section. -/
def Clear (f : Func M) (b : ℕ) : Prop := ∀ e ∈ f.chain b, (f.block e).role.isEmi = false

/-- The two blocks are in the same EMI sections. -/
def SameSections (f : Func M) (b c : ℕ) : Prop :=
  ∀ e, (f.block e).role.isEmi = true → (e ∈ f.chain b ↔ e ∈ f.chain c)

/-- **One change of a section**: CFG edges go, a statement is erased from its
block, or a block is merged into one around it, both of the same sections.
Which statement and which block is open here; `PruneBlock` draws coins for
that. -/
inductive PruneStep (σ : Pruning M) : Pruning M → Prop
  | edges {E : List (ℕ × ℕ)} (hE : E ⊆ σ.edges) : PruneStep σ { σ with edges := E }
  | erase {b s : ℕ} (hin : ¬ Clear σ.func b) : PruneStep σ (σ.eraseStmt b s)
  | merge {position b c : ℕ} (hin : ¬ Clear σ.func b) (hlt : b < c)
      (hsame : SameSections σ.func b c) : PruneStep σ (σ.mergeBlock position b c).1

/-- The functions pruning can make of one, nothing of which is deleted yet. -/
def Prunes (f f' : Func M) : Prop :=
  ∃ E σ, Relation.ReflTransGen PruneStep ⟨f, fun _ => [], E⟩ σ ∧ σ.func = f'

theorem Prunes.refl (f : Func M) : Prunes f f := ⟨[], _, .refl, rfl⟩

/-- **What pruning leaves as it was.** Statements are deleted or come to stand further
out, but none leaves the sections it is in, and where there is no section nothing
changes. -/
structure Pruned (f f' : Func M) : Prop where
  parent : ∀ b, (f'.block b).parent = (f.block b).parent
  role : ∀ b, (f'.block b).role = (f.block b).role
  kind : ∀ s, (f'.stm s).kind = (f.stm s).kind
  mem_stms : ∀ b s, s ∈ (f'.block b).stms → s < f.nextStm ∧ (f'.stm s).parent = b
  stms : ∀ b, Clear f b → (f'.block b).stms = (f.block b).stms
  stm : ∀ s < f.nextStm, Clear f (f.stm s).parent → f'.stm s = f.stm s
  sections : ∀ s < f.nextStm, SameSections f (f'.stm s).parent (f.stm s).parent
  parent_le : ∀ s, (f'.stm s).parent ≤ (f.stm s).parent

theorem pruned_refl (hf : f.Wf) : Pruned f f where
  parent _ := rfl
  role _ := rfl
  kind _ := rfl
  mem_stms := hf.mem_stms
  stms _ _ := rfl
  stm _ _ _ := rfl
  sections _ _ _ _ := Iff.rfl
  parent_le _ := Nat.le_refl _

theorem Pruned.chain (h : Pruned f f') (hf : f.Wf) (b : ℕ) : f'.chain b = f.chain b :=
  chain_congr hf.parent_lt fun c _ => h.parent c

theorem Pruned.clear_iff (h : Pruned f f') (hf : f.Wf) : Clear f' b ↔ Clear f b := by
  unfold Clear
  rw [h.chain hf b]
  exact forall₂_congr fun e _ => by rw [h.role e]

theorem Pruned.sameSections_iff (h : Pruned f f') (hf : f.Wf) :
    SameSections f' b c ↔ SameSections f b c := by
  unfold SameSections
  rw [h.chain hf b, h.chain hf c]
  exact forall_congr' fun e => by rw [h.role e]

/-- Blocks of the same sections are both in one or both in none. -/
theorem SameSections.clear (h : SameSections f b c) (hb : Clear f b) : Clear f c := by
  intro e he
  by_contra hemi
  have hemi' : (f.block e).role.isEmi = true := Bool.eq_true_of_not_eq_false hemi
  exact hemi (hb e ((h e hemi').mpr he))

theorem SameSections.symm (h : SameSections f b c) : SameSections f c b :=
  fun e hemi => (h e hemi).symm

/-- **The tables of a function under pruning**: what is as it was, and a
deleted statement still knows the block it is deleted from. -/
structure Underway (f : Func M) (E : List (ℕ × ℕ)) (σ : Pruning M) : Prop where
  pruned : Pruned f σ.func
  deleted : ∀ b, ∀ s ∈ σ.deleted b, σ.parent s = b
  edges : σ.edges ⊆ E

theorem underway_start (hf : f.Wf) (E : List (ℕ × ℕ)) : Underway f E ⟨f, fun _ => [], E⟩ where
  pruned := pruned_refl hf
  deleted _ _ h := absurd h List.not_mem_nil
  edges := List.Subset.refl _

theorem Underway.erase (h : Underway f E σ) (hf : f.Wf) (hin : ¬ Clear σ.func b) :
    Underway f E (σ.eraseStmt b s) := by
  -- a statement that is not found is not erased
  by_cases hs : s ∈ σ.stms b
  swap
  · unfold Pruning.eraseStmt
    rwa [if_neg hs]
  have hframe := Pruning.eraseStmt_frame σ b s
  have hstm : (σ.eraseStmt b s).func.stm = σ.func.stm := by
    unfold Pruning.eraseStmt
    rw [if_pos hs]
  have hdeleted : (σ.eraseStmt b s).deleted =
      Function.update σ.deleted b (σ.deleted b ++ [s]) := by
    unfold Pruning.eraseStmt
    rw [if_pos hs]
  refine ⟨⟨fun c => ?_, fun c => ?_, fun t => ?_, fun c t ht => ?_, fun c hc => ?_,
    fun t ht hc => ?_, fun t ht => ?_, fun t => ?_⟩, fun c t ht => ?_, ?_⟩
  · exact (hframe.parent c).trans (h.pruned.parent c)
  · exact (hframe.role c).trans (h.pruned.role c)
  · exact (hframe.kind t).trans (h.pruned.kind t)
  · have hmem : t ∈ σ.stms c := by
      have ht' : t ∈ (σ.eraseStmt b s).stms c := ht
      rw [Pruning.eraseStmt_stms hs] at ht'
      split at ht'
      · next hcb => exact hcb ▸ List.mem_of_mem_erase ht'
      · exact ht'
    rw [hstm]
    exact h.pruned.mem_stms c t hmem
  · have hne : c ∉ [b] := by
      intro hmem
      obtain rfl := List.mem_singleton.mp hmem
      exact hin ((h.pruned.clear_iff hf).mpr hc)
    exact (hframe.stms c hne).trans (h.pruned.stms c hc)
  · rw [hstm]
    exact h.pruned.stm t ht hc
  · rw [hstm]
    exact h.pruned.sections t ht
  · rw [hstm]
    exact h.pruned.parent_le t
  · have hparent : (σ.eraseStmt b s).parent t = σ.parent t := congrArg (fun g => (g t).parent) hstm
    rw [hparent]
    rw [hdeleted] at ht
    by_cases hc : c = b
    · subst hc
      rw [Function.update_self] at ht
      rcases List.mem_append.mp ht with ht | ht
      · exact h.deleted c t ht
      · obtain rfl := List.mem_singleton.mp ht
        exact (h.pruned.mem_stms c t hs).2
    · rw [Function.update_of_ne hc] at ht
      exact h.deleted c t ht
  · rw [hframe.edges]
    exact h.edges

theorem Underway.merge {position : ℕ} (h : Underway f E σ) (hf : f.Wf) (hin : ¬ Clear σ.func b)
    (hlt : b < c) (hsame : SameSections σ.func b c) :
    Underway f E (σ.mergeBlock position b c).1 := by
  have hbc : b ≠ c := by omega
  have hsame' : SameSections f b c := (h.pruned.sameSections_iff hf).mp hsame
  have hformer : ¬ Clear f b := fun hc => hin ((h.pruned.clear_iff hf).mpr hc)
  have hmerger : ¬ Clear f c := fun hc => hformer (hsame'.symm.clear hc)
  have hframe : Pruning.Frame [b, c] σ (σ.mergeBlock position b c).1 :=
    Pruning.mergeBlock_frame hbc
  have hmoved : ∀ t, t ∈ σ.stms c ++ σ.deleted c →
      (σ.mergeBlock position b c).1.func.stm t = { σ.func.stm t with parent := b } :=
    fun t ht => if_pos ht
  have hstay : ∀ t, t ∉ σ.stms c ++ σ.deleted c →
      (σ.mergeBlock position b c).1.func.stm t = σ.func.stm t := fun t ht => if_neg ht
  -- what moves was in the merger
  have hfrom : ∀ t, t ∈ σ.stms c ++ σ.deleted c → (σ.func.stm t).parent = c := by
    intro t ht
    rcases List.mem_append.mp ht with ht | ht
    · exact (h.pruned.mem_stms c t ht).2
    · exact h.deleted c t ht
  refine ⟨⟨fun d => ?_, fun d => ?_, fun t => ?_, fun d t ht => ?_, fun d hd => ?_,
    fun t ht hd => ?_, fun t ht => ?_, fun t => ?_⟩, fun d t ht => ?_, ?_⟩
  · exact (hframe.parent d).trans (h.pruned.parent d)
  · exact (hframe.role d).trans (h.pruned.role d)
  · exact (hframe.kind t).trans (h.pruned.kind t)
  · obtain ⟨hdc, hmem⟩ := (Pruning.mem_mergeBlock hbc d t).mp ht
    by_cases hm : t ∈ σ.stms c ++ σ.deleted c
    · rw [hmoved t hm]
      rcases hmem with hmem | ⟨rfl, hmem⟩
      · exact absurd ((h.pruned.mem_stms d t hmem).2.symm.trans (hfrom t hm)) hdc
      · exact ⟨(h.pruned.mem_stms c t hmem).1, rfl⟩
    · rw [hstay t hm]
      rcases hmem with hmem | ⟨-, hmem⟩
      · exact h.pruned.mem_stms d t hmem
      · exact absurd (List.mem_append_left _ hmem) hm
  · have hne : d ∉ [b, c] := by
      intro hmem
      rcases List.mem_pair.mp hmem with rfl | rfl
      · exact hformer hd
      · exact hmerger hd
    exact (hframe.stms d hne).trans (h.pruned.stms d hd)
  · have hold := h.pruned.stm t ht hd
    by_cases hm : t ∈ σ.stms c ++ σ.deleted c
    · have hp := hfrom t hm
      rw [hold] at hp
      exact absurd (hp ▸ hd) hmerger
    · rw [hstay t hm]
      exact hold
  · by_cases hm : t ∈ σ.stms c ++ σ.deleted c
    · rw [hmoved t hm]
      intro e hemi
      have hsec := h.pruned.sections t ht e hemi
      rw [hfrom t hm] at hsec
      exact (hsame' e hemi).trans hsec
    · rw [hstay t hm]
      exact h.pruned.sections t ht
  · by_cases hm : t ∈ σ.stms c ++ σ.deleted c
    · have hle := h.pruned.parent_le t
      rw [hfrom t hm] at hle
      rw [hmoved t hm]
      exact hlt.le.trans hle
    · rw [hstay t hm]
      exact h.pruned.parent_le t
  · have hdel : (σ.mergeBlock position b c).1.deleted = Function.update
        (Function.update σ.deleted b (σ.deleted b ++ σ.deleted c)) c [] := rfl
    rw [hdel] at ht
    show ((σ.mergeBlock position b c).1.func.stm t).parent = d
    by_cases hdc : d = c
    · subst hdc
      rw [Function.update_self] at ht
      cases ht
    · rw [Function.update_of_ne hdc] at ht
      by_cases hm : t ∈ σ.stms c ++ σ.deleted c
      · rw [hmoved t hm]
        by_cases hdb : d = b
        · exact hdb.symm
        · rw [Function.update_of_ne hdb] at ht
          exact absurd ((h.deleted d t ht).symm.trans (hfrom t hm)) hdc
      · rw [hstay t hm]
        by_cases hdb : d = b
        · subst hdb
          rw [Function.update_self] at ht
          rcases List.mem_append.mp ht with ht | ht
          · exact h.deleted d t ht
          · exact absurd (List.mem_append_right _ ht) hm
        · rw [Function.update_of_ne hdb] at ht
          exact h.deleted d t ht
  · rw [hframe.edges]
    exact h.edges

theorem Underway.step (h : Underway f E σ) (hf : f.Wf) (hstep : PruneStep σ σ') :
    Underway f E σ' := by
  cases hstep with
  | edges hE => exact ⟨h.pruned, h.deleted, List.Subset.trans hE h.edges⟩
  | erase hin => exact h.erase hf hin
  | merge hin hlt hsame => exact h.merge hf hin hlt hsame

theorem Underway.steps (h : Underway f E σ) (hf : f.Wf)
    (hsteps : Relation.ReflTransGen PruneStep σ σ') : Underway f E σ' := by
  induction hsteps with
  | refl => exact h
  | tail _ hstep ih => exact ih.step hf hstep

/-- **Pruning leaves the rest of the program alone.** -/
theorem Prunes.pruned (hf : f.Wf) (h : Prunes f f') : Pruned f f' := by
  obtain ⟨E, σ, hsteps, rfl⟩ := h
  exact ((underway_start hf E).steps hf hsteps).pruned

/-! ## The runs -/

/-- **The gotos of a function keep out of the EMI sections**: around the target of a
goto there are only sections that are around the goto as well. -/
def Apart (f : Func M) : Prop :=
  ∀ s < f.nextStm, ∀ test dest, (f.stm s).kind = .goto test dest →
    ∀ e ∈ f.chain (f.stm dest).parent, (f.block e).role.isEmi = true → e ∈ f.chain (f.stm s).parent

/-- The edges are those of gotos. -/
def GotoEdges (f : Func M) (E : List (ℕ × ℕ)) : Prop :=
  ∀ e ∈ E, e.1 < f.nextStm ∧ ∃ test, (f.stm e.1).kind = .goto test e.2

/-- The statement stood in a section before pruning. -/
def InSection (f : Func M) (s : ℕ) : Prop := s < f.nextStm ∧ ¬ Clear f (f.stm s).parent

/-- The blocks of a statement of a section are in the section, and younger
than the block the statement stands in. -/
theorem InSection.blocks (h : InSection f s) (hf : f.Wf) (hc : c ∈ (f.stm s).kind.blocks) :
    ¬ Clear f c ∧ (f.stm s).parent < c := by
  have hpar := (hf.kept s h.1).parent hc
  refine ⟨fun hclear => h.2 fun e he => hclear e ?_, hf.parent_lt c _ hpar⟩
  rw [chain_of_parent hf.parent_lt hpar]
  exact List.mem_cons_of_mem _ he

/-- A branch or the body of a loop is in the sections its statement is in. -/
theorem sameSections_of_parent (hf : f.Wf) (hpar : (f.block c).parent = some b)
    (hrole : (f.block c).role.isEmi = false) : SameSections f b c := by
  intro e hemi
  have hne : e ≠ c := by
    rintro rfl
    rw [hrole] at hemi
    cases hemi
  rw [chain_of_parent hf.parent_lt hpar, List.mem_cons, or_iff_right hne]

section Runs

variable (hf : f.Wf) (ha : Apart f) (hE : GotoEdges f E)

theorem Underway.inSection (h : Underway f E σ) (hb : ¬ Clear f b) (hs : s ∈ σ.stms b) :
    InSection f s := by
  obtain ⟨hlt, hpar⟩ := h.pruned.mem_stms b s hs
  refine ⟨hlt, fun hclear => hb ?_⟩
  have hsec := h.pruned.sections s hlt
  rw [hpar] at hsec
  exact hsec.symm.clear hclear

theorem Underway.not_clear_parent (h : Underway f E σ) (hs : InSection f s) :
    ¬ Clear f (σ.parent s) :=
  fun hclear => hs.2 ((h.pruned.sections s hs.1).clear hclear)

include hf

/-- A statement of a section contains statements of sections only. -/
theorem Underway.inside (h : Underway f E σ) (hs : InSection f s) (n : ℕ) :
    ∀ t ∈ σ.inside n s, InSection f t := by
  induction n generalizing s with
  | zero =>
    intro t ht
    obtain rfl := List.mem_singleton.mp ht
    exact hs
  | succ n ih =>
    intro t ht
    rcases List.mem_cons.mp ht with rfl | ht
    · exact hs
    · obtain ⟨c, hc, ht⟩ := List.mem_flatMap.mp ht
      obtain ⟨u, hu, ht⟩ := List.mem_flatMap.mp ht
      have hkind : σ.kind s = (f.stm s).kind := h.pruned.kind s
      rw [hkind] at hc
      exact ih (h.inSection (hs.blocks hf hc).1 hu) t ht

/-- What a lift of a branch or a loop body needs, while its statement stands
in the block `b`. -/
theorem Underway.liftable (h : Underway f E σ) (hb : ¬ Clear f b) (hs : s ∈ σ.stms b)
    (hc : c ∈ (f.stm s).kind.blocks) (hrole : (f.block c).role.isEmi = false) :
    b < c ∧ SameSections f b c := by
  have hin := h.inSection hb hs
  obtain ⟨hlt, hpar⟩ := h.pruned.mem_stms b s hs
  have hle := h.pruned.parent_le s
  rw [hpar] at hle
  have hsec := h.pruned.sections s hlt
  rw [hpar] at hsec
  have hnest := sameSections_of_parent hf ((hf.kept s hlt).parent hc) hrole
  exact ⟨lt_of_le_of_lt hle (hin.blocks hf hc).2, fun e hemi => (hsec e hemi).trans (hnest e hemi)⟩

theorem Underway.erase_step (h : Underway f E σ) (hb : ¬ Clear f b) :
    PruneStep σ (σ.eraseStmt b s) :=
  .erase fun hclear => hb ((h.pruned.clear_iff hf).mp hclear)

theorem Underway.merge_step {position : ℕ} (h : Underway f E σ) (hb : ¬ Clear f b)
    (hc : b < c ∧ SameSections f b c) : PruneStep σ (σ.mergeBlock position b c).1 :=
  .merge (fun hclear => hb ((h.pruned.clear_iff hf).mp hclear)) hc.1
    ((h.pruned.sameSections_iff hf).mpr hc.2)

namespace Pruning

open Relation

include ha hE

variable {n k : ℕ}

/-- The goto to a statement of a section is in the section itself. -/
theorem removeJumps_steps {rm : ℕ → ℕ → Pruning M → Pruning M}
    (hrm : ∀ σ b s, Underway f E σ → ¬ Clear f b → InSection f s →
      ReflTransGen PruneStep σ (rm b s σ))
    (h : Underway f E σ) (hs : InSection f s) (m : ℕ) :
    ReflTransGen PruneStep σ (removeJumps rm n s m σ) := by
  induction m generalizing σ with
  | zero => exact .refl
  | succ m ih =>
    rw [removeJumps]
    split
    · exact .refl
    · next e hfind =>
      obtain ⟨hlt, test, hkind⟩ := hE e (h.edges (List.mem_of_find?_eq_some hfind))
      have hfound : e.2 ∈ σ.inside n s := by simpa using List.find?_some hfind
      have hdest := h.inside hf hs n _ hfound
      have hsrc : InSection f e.1 := by
        refine ⟨hlt, fun hclear => hdest.2 fun a hmem => ?_⟩
        by_contra hemi
        have hemi' : (f.block a).role.isEmi = true := Bool.eq_true_of_not_eq_false hemi
        exact hemi (hclear a (ha e.1 hlt test e.2 hkind a hmem hemi'))
      have hedge : PruneStep σ { σ with edges := σ.edges.erase e } := .edges List.erase_subset
      have h₁ := h.step hf hedge
      have hrun := hrm _ (σ.parent e.1) e.1 h₁ (h.not_clear_parent hsrc) hsrc
      exact (ReflTransGen.head hedge hrun).trans (ih (h₁.steps hf hrun))

/-- **`remove_stmt`** of a statement of a section. -/
theorem removeStmtFrom_steps (h : Underway f E σ) (hb : ¬ Clear f b) (hs : InSection f s) :
    ReflTransGen PruneStep σ (removeStmtFrom n k b s σ) := by
  induction k generalizing σ b s with
  | zero => exact .refl
  | succ k ih =>
    rw [removeStmtFrom]
    generalize hσ₁ : ({ σ with edges := σ.edges.filter fun e => decide (e.1 ∉ σ.inside n s) } :
      Pruning M) = σ₁
    have hedges : PruneStep σ σ₁ := hσ₁ ▸ .edges (List.filter_subset_self _)
    have h₁ := h.step hf hedges
    have hjumps : ReflTransGen PruneStep σ₁
        (removeJumps (removeStmtFrom n k) n s σ₁.edges.length σ₁) :=
      removeJumps_steps hf ha hE (fun _ _ _ h hb hs => ih h hb hs) h₁ hs _
    exact (ReflTransGen.head hedges hjumps).tail ((h₁.steps hf hjumps).erase_step hf hb)

theorem removeStmts_steps {del : List ℕ} (h : Underway f E σ) (hb : ¬ Clear f b)
    (hdel : ∀ s ∈ del, InSection f s) : ReflTransGen PruneStep σ (σ.removeStmts n b del) := by
  induction del generalizing σ with
  | nil => exact .refl
  | cons s del ih =>
    have hone : ReflTransGen PruneStep σ (σ.removeStmt n b s) :=
      removeStmtFrom_steps hf ha hE h hb (hdel s List.mem_cons_self)
    exact hone.trans (ih (h.steps hf hone) fun t ht => hdel t (List.mem_cons_of_mem _ ht))

omit ha hE in
theorem clearBranches_steps {clear : ℕ → Pruning M → Option (Pruning M)}
    (hclear : ∀ σ c σ', Underway f E σ → ¬ Clear f c → clear c σ = some σ' →
      ReflTransGen PruneStep σ σ')
    {live l : List ℕ} (h : Underway f E σ) (hl : ∀ s ∈ l, InSection f s)
    (hrun : clearBranches clear b live l σ = some σ') : ReflTransGen PruneStep σ σ' := by
  induction l generalizing σ with
  | nil =>
    cases hrun
    exact .refl
  | cons s l ih =>
    have hs := hl s List.mem_cons_self
    have hrest : ∀ t ∈ l, InSection f t := fun t ht => hl t (List.mem_cons_of_mem _ ht)
    rw [clearBranches] at hrun
    split at hrun
    · next test t e hkind =>
      have hkind' : (f.stm s).kind = .ifElse test t e := (h.pruned.kind s).symm.trans hkind
      have hblocks : ∀ c ∈ [t, e], ¬ Clear f c := by
        intro c hc
        refine (hs.blocks hf (c := c) ?_).1
        rw [hkind']
        exact hc
      simp only [Option.bind_eq_bind, Option.bind_eq_some_iff] at hrun
      obtain ⟨σ₁, h₁, σ₂, h₂, -, -, hrun⟩ := hrun
      have hsteps₁ := hclear σ t σ₁ h (hblocks t (by simp)) h₁
      have hu₁ := h.steps hf hsteps₁
      have hsteps₂ := hclear σ₁ e σ₂ hu₁ (hblocks e (by simp)) h₂
      exact (hsteps₁.trans hsteps₂).trans (ih (hu₁.steps hf hsteps₂) hrest hrun)
    · exact ih h hrest hrun

/-- **`RemoveBreakContinue`** of a block of a section. -/
theorem removeBreakContinue_steps (h : Underway f E σ) (hb : ¬ Clear f b)
    (hrun : σ.removeBreakContinue n b = some σ') : ReflTransGen PruneStep σ σ' := by
  induction n generalizing σ b σ' with
  | zero => cases hrun
  | succ n ih =>
    rw [removeBreakContinue] at hrun
    simp only [Option.bind_eq_bind, Option.bind_eq_some_iff, Option.some.injEq] at hrun
    obtain ⟨σ₁, hclear, rfl⟩ := hrun
    have hlive : ∀ s ∈ σ.stms b, InSection f s := fun s hs => h.inSection hb hs
    have hsteps := clearBranches_steps hf (fun _ _ _ h hb hrun => ih h hb hrun) h hlive hclear
    refine hsteps.trans (removeStmts_steps hf ha hE (h.steps hf hsteps) hb fun s hs => ?_)
    exact hlive s (List.mem_of_mem_filter hs)

omit hf ha hE in
theorem nested_subset_blocks {K : Kind M} {blks : List ℕ} (h : nested K = some blks) :
    blks ⊆ K.blocks := by
  cases K with
  | ifElse test t e =>
    cases h
    exact List.Subset.refl _
  | forLoop init test incr c =>
    cases h
    exact List.Subset.refl _
  | _ => cases h

omit hf ha hE in
theorem mem_of_advance {l : List ℕ} {position p : ℕ} (h : advance l s position = some p) :
    s ∈ l := by
  unfold advance at h
  split at h
  · next hs => exact List.mem_of_mem_drop hs
  · cases h

/-- **Lifting**: each block is merged into the one its statement stands in. -/
theorem liftStms_steps {inLoop : Bool} {lift : List ℕ} {position : ℕ} (h : Underway f E σ)
    (hb : ¬ Clear f b) (hrun : liftStms n b inLoop lift position σ = some σ') :
    ReflTransGen PruneStep σ σ' := by
  induction lift generalizing σ position with
  | nil =>
    cases hrun
    exact .refl
  | cons s lift ih =>
    rw [liftStms] at hrun
    simp only [Option.bind_eq_bind, Option.bind_eq_some_iff] at hrun
    obtain ⟨p, hadvance, hrun⟩ := hrun
    have hs := mem_of_advance hadvance
    have hkept := hf.kept s (h.inSection hb hs).1
    have hkind : σ.kind s = (f.stm s).kind := h.pruned.kind s
    split at hrun
    · next test t e hk =>
      rw [hkind] at hk
      rw [hk] at hkept
      have hliftable : ∀ c ∈ [t, e], (f.block c).role = .branch → b < c ∧ SameSections f b c := by
        intro c hc hrole
        refine h.liftable hf hb hs (c := c) ?_ (hrole ▸ rfl)
        rw [hk]
        exact hc
      -- the true block, and then the false block
      have hstep₁ : PruneStep σ (σ.mergeBlock p b t).1 :=
        h.merge_step hf hb (hliftable t (by simp) hkept.1.2.2)
      have hu₁ := h.step hf hstep₁
      have hstep₂ : PruneStep (σ.mergeBlock p b t).1
          ((σ.mergeBlock p b t).1.mergeBlock (σ.mergeBlock p b t).2 b e).1 :=
        hu₁.merge_step hf hb (hliftable e (by simp) hkept.2.2.2)
      exact .head hstep₁ (.head hstep₂ (ih (hu₁.step hf hstep₂) hrun))
    · next i test incr c hk =>
      simp only [Option.bind_eq_some_iff] at hrun
      obtain ⟨σ₁, hclear, -, -, hrun⟩ := hrun
      rw [hkind] at hk
      rw [hk] at hkept
      have hmem : c ∈ (f.stm s).kind.blocks := by
        rw [hk]
        exact List.mem_singleton_self c
      have hsteps : ReflTransGen PruneStep σ σ₁ := by
        cases inLoop with
        | true =>
          cases hclear
          exact .refl
        | false =>
          have hc : ¬ Clear f c := ((h.inSection hb hs).blocks hf hmem).1
          exact removeBreakContinue_steps hf ha hE h hc hclear
      have hu₁ := h.steps hf hsteps
      have hstep : PruneStep σ₁ (σ₁.mergeBlock p b c).1 :=
        hu₁.merge_step hf hb (h.liftable hf hb hs hmem (hkept.2.2 ▸ rfl))
      exact hsteps.trans (.head hstep (ih (hu₁.step hf hstep) hrun))
    · cases hrun

omit ha hE in
/-- The blocks of a statement, pruned one after the other. -/
theorem nestedBlocks_steps {prune : ℕ → Pruning M → Gen (Pruning M)}
    (hprune : ∀ σ c tape σ' tape', Underway f E σ → ¬ Clear f c →
      prune c σ tape = some (σ', tape') → ReflTransGen PruneStep σ σ')
    {blks : List ℕ} {tape tape' : Tape} (h : Underway f E σ) (hblks : ∀ c ∈ blks, ¬ Clear f c)
    (hrun : blks.foldlM (fun σ c => prune c σ) σ tape = some (σ', tape')) :
    ReflTransGen PruneStep σ σ' := by
  induction blks generalizing σ tape with
  | nil =>
    cases hrun
    exact .refl
  | cons c blks ih =>
    obtain ⟨τ, tape₁, hone, hrun⟩ := Gen.bind_eq_some.mp hrun
    have hsteps := hprune σ c tape τ tape₁ h (hblks c List.mem_cons_self) hone
    refine hsteps.trans (ih (h.steps hf hsteps) (fun d hd => ?_) hrun)
    exact hblks d (List.mem_cons_of_mem _ hd)

omit ha hE in
/-- The loop of `PruneBlock`: the blocks of the statements are pruned, and
what it is to delete and to lift is among the statements. -/
theorem visitStms_steps {p : Probs} {prune : ℕ → Pruning M → Gen (Pruning M)}
    (hprune : ∀ σ c tape σ' tape', Underway f E σ → ¬ Clear f c →
      prune c σ tape = some (σ', tape') → ReflTransGen PruneStep σ σ')
    {live l del lift : List ℕ} {tape tape' : Tape} (h : Underway f E σ)
    (hl : ∀ s ∈ l, InSection f s)
    (hrun : visitStms p prune b live l σ tape = some ((σ', del, lift), tape')) :
    ReflTransGen PruneStep σ σ' ∧ del ⊆ l ∧ lift ⊆ l := by
  induction l generalizing σ del lift tape with
  | nil =>
    cases hrun
    exact ⟨.refl, List.Subset.refl _, List.Subset.refl _⟩
  | cons s l ih =>
    have hs := hl s List.mem_cons_self
    have hrest : ∀ t ∈ l, InSection f t := fun t ht => hl t (List.mem_cons_of_mem _ ht)
    have hcons : ∀ {coin : Bool} {d : List ℕ}, d ⊆ l → (if coin then s :: d else d) ⊆ s :: l := by
      intro coin d hd
      cases coin with
      | true => exact List.cons_subset_cons s hd
      | false => exact List.Subset.trans hd (List.subset_cons_self s l)
    cases hnested : nested (σ.kind s) with
    | none =>
      simp only [visitStms, hnested] at hrun
      obtain ⟨doLeaf, tape₁, -, hrun⟩ := Gen.bind_eq_some.mp hrun
      obtain ⟨⟨σ₁, del₁, lift₁⟩, tape₂, hvisit, hrun⟩ := Gen.bind_eq_some.mp hrun
      cases hrun
      obtain ⟨hsteps, hdel, hlift⟩ := ih h hrest hvisit
      exact ⟨hsteps, hcons hdel, List.Subset.trans hlift (List.subset_cons_self s l)⟩
    | some blks =>
      simp only [visitStms, hnested] at hrun
      obtain ⟨σ₁, tape₁, hfold, hrun⟩ := Gen.bind_eq_some.mp hrun
      obtain ⟨-, tape₂, -, hrun⟩ := Gen.bind_eq_some.mp hrun
      obtain ⟨doCompound, tape₃, -, hrun⟩ := Gen.bind_eq_some.mp hrun
      obtain ⟨doLift, tape₄, -, hrun⟩ := Gen.bind_eq_some.mp hrun
      obtain ⟨⟨σ₂, del₂, lift₂⟩, tape₅, hvisit, hrun⟩ := Gen.bind_eq_some.mp hrun
      cases hrun
      -- the blocks of what is in a section are in it too
      have hblks : ∀ c ∈ blks, ¬ Clear f c := by
        intro c hc
        refine (hs.blocks hf (c := c) ?_).1
        rw [← h.pruned.kind s]
        exact nested_subset_blocks hnested hc
      have hsteps₁ := nestedBlocks_steps hf hprune h hblks hfold
      obtain ⟨hsteps₂, hdel, hlift⟩ := ih (h.steps hf hsteps₁) hrest hvisit
      exact ⟨hsteps₁.trans hsteps₂, hcons hdel, hcons hlift⟩

/-- **`PruneBlock`** of a block of a section. -/
theorem pruneBlock_steps {p : Probs} {tape tape' : Tape} (h : Underway f E σ) (hb : ¬ Clear f b)
    (hrun : pruneBlock p n b σ tape = some (σ', tape')) : ReflTransGen PruneStep σ σ' := by
  induction n generalizing σ b σ' tape tape' with
  | zero => cases hrun
  | succ n ih =>
    rw [pruneBlock] at hrun
    obtain ⟨⟨σ₁, del, lift⟩, tape₁, hvisit, hrun⟩ := Gen.bind_eq_some.mp hrun
    obtain ⟨hsettle, -⟩ := Gen.ofOption_eq_some.mp hrun
    have hlive : ∀ s ∈ σ.stms b, InSection f s := fun s hs => h.inSection hb hs
    obtain ⟨hsteps₁, hdel, hlift⟩ := visitStms_steps hf
      (fun _ _ _ _ _ h hb hrun => ih h hb hrun) h hlive hvisit
    have hu₁ := h.steps hf hsteps₁
    unfold settle at hsettle
    simp only [Option.bind_eq_bind, Option.bind_eq_some_iff, Option.some.injEq] at hsettle
    obtain ⟨σ₂, hlifted, rfl⟩ := hsettle
    have hsteps₂ : ReflTransGen PruneStep σ₁ (σ₁.removeStmts (n + 1) b del) :=
      removeStmts_steps hf ha hE hu₁ hb fun s hs => hlive s (hdel hs)
    have hu₂ := hu₁.steps hf hsteps₂
    have hsteps₃ := liftStms_steps hf ha hE hu₂ hb hlifted
    have hsteps₄ : ReflTransGen PruneStep σ₂ (σ₂.removeStmts (n + 1) b lift) :=
      removeStmts_steps hf ha hE (hu₂.steps hf hsteps₃) hb fun s hs => hlive s (hlift hs)
    exact ((hsteps₁.trans hsteps₂).trans hsteps₃).trans hsteps₄

end Pruning

end Runs

/-- **`PruneEMISections`** makes nothing but such changes of the functions of
a program whose gotos keep out of the sections. -/
theorem pruneEmiSections_prunes {P : ℕ → Func M} {E : ℕ → List (ℕ × ℕ)} {p : Probs} {n : ℕ}
    {sections : List (ℕ × ℕ)} {σ : ℕ → Pruning M} {tape tape' : Tape} (hf : ∀ i, (P i).Wf)
    (ha : ∀ i, Apart (P i)) (hE : ∀ i, GotoEdges (P i) (E i))
    (hsections : ∀ e ∈ sections, ¬ Clear (P e.1) e.2)
    (hrun : Pruning.pruneEmiSections p n sections (fun i => ⟨P i, fun _ => [], E i⟩) tape =
      some (σ, tape')) (i : ℕ) : Prunes (P i) (σ i).func := by
  suffices hsteps : ∀ τ : ℕ → Pruning M, (∀ i, Underway (P i) (E i) (τ i)) →
      ∀ tape, Pruning.pruneEmiSections p n sections τ tape = some (σ, tape') →
        ∀ i, Relation.ReflTransGen PruneStep (τ i) (σ i) from
    ⟨E i, σ i, hsteps _ (fun i => underway_start (hf i) (E i)) tape hrun i, rfl⟩
  clear hrun
  induction sections with
  | nil =>
    intro τ _ tape hrun i
    cases hrun
    exact .refl
  | cons e sections ih =>
    intro τ hτ tape hrun i
    obtain ⟨τ', tape₁, hone, hrun⟩ := Gen.bind_eq_some.mp hrun
    obtain ⟨g, tape₂, hprune, hone⟩ := Gen.bind_eq_some.mp hone
    cases hone
    have hsteps := Pruning.pruneBlock_steps (hf e.1) (ha e.1) (hE e.1) (hτ e.1)
      (hsections e List.mem_cons_self) hprune
    have hnext : ∀ j, Relation.ReflTransGen PruneStep (τ j) (Function.update τ e.1 g j) := by
      intro j
      by_cases hj : j = e.1
      · subst hj
        rwa [Function.update_self]
      · rw [Function.update_of_ne hj]
    refine (hnext i).trans (ih (fun d hd => hsections d (List.mem_cons_of_mem _ hd)) _ ?_ _ hrun i)
    exact fun j => (hτ j).steps (hf j) (hnext j)

end EMI

end CLSmith
