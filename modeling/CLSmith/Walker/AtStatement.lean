import CLSmith.Walker.Next
/-!
# A walker at a statement

`CreateFunctionWalkerAtStatement` builds the stack of a walker from the
statement outwards, along the parents of the blocks. At each block it takes
away the branch it comes from, and with an else block the true one too. The
result is at the cursor a walker comes to that has advanced there.
-/

namespace CLSmith

namespace Walker

open Generate Common

variable {M : Type} (f : Func M)

namespace BlockWalker

variable (w : BlockWalker)

/-- `AdvanceToStatement`. -/
def advanceToStatement (s : ℕ) : BlockWalker × Bool :=
  match (w.ahead f).dropWhile fun s' => decide (s' ≠ s) with
  | [] => ({ w with blockIt := [] }, false)
  | s' :: rest => ({ w with statement := some s', blockIt := rest }, true)

/-- `CreateBlockWalkerAtStatement`. -/
def createAtStatement (block s : ℕ) : Option BlockWalker :=
  match advanceToStatement f { block := block } s with
  | (w, true) => some (w.advanceSelector f s)
  | (_, false) => none

/-- The branch the stack is built from is not entered again. -/
def resetBranch (s branch : ℕ) : BlockWalker :=
  match (f.stm s).kind with
  | .forLoop _ _ _ _ => { w with forBody := none }
  | .ifElse _ _ e =>
    { w with ifBody := none, elseBody := if branch = e then none else w.elseBody }
  | _ => w

end BlockWalker

/-- `find_container_stm`. -/
def findContainerStm (s : ℕ) : Option ℕ := do
  let p ← (f.block (f.stm s).parent).parent
  (f.block p).stms.find? fun s' => decide ((f.stm s).parent ∈ (f.stm s').kind.blocks)

namespace FunctionWalker

/-- The loop of `CreateFunctionWalkerAtStatement`: the walkers of `block` and
of the blocks around it, from the inside. -/
def createNestedBlocks : ℕ → Option ℕ → ℕ → ℕ → Option (List BlockWalker)
  | 0, _, _, _ => none
  | n + 1, branch, block, s => do
    let w ← BlockWalker.createAtStatement f block s
    let w := match branch with
      | some b => w.resetBranch f s b
      | none => w
    match (f.block block).parent with
    | none => some [w]
    | some p =>
      let container ← findContainerStm f s
      let ws ← createNestedBlocks n (some block) p container
      some (w :: ws)

/-- **`CreateFunctionWalkerAtStatement`**. The walkers are built from the inside, and
each outer one has the branches up to the one it was left for taken off. -/
def createFunctionWalkerAtStatement (n s : ℕ) : Option FunctionWalker :=
  match createNestedBlocks f n none (f.stm s).parent s with
  | some (w :: nested) => some { blockWalker := w, nestedBlocks := nested }
  | _ => none

/-- `Advance` until the walker is at `s`. -/
def advanceTo (s : ℕ) : ℕ → FunctionWalker → Option FunctionWalker
  | 0, _ => none
  | n + 1, w =>
    if w.blockWalker.statement = some s then some w
    else
      match w.advance f with
      | some (w, true) => advanceTo s n w
      | _ => none

end FunctionWalker

/-- The parents in the tables are those of the text. -/
def Rooted : ℕ → Stms ℕ ℕ → Prop
  | _, .nil => True
  | b, .leaf s rest => (f.stm s).parent = b ∧ Rooted b rest
  | b, .ifElse s t e T E rest => (f.stm s).parent = b ∧
    ((f.block t).parent = some b ∧ Rooted t T) ∧ ((f.block e).parent = some b ∧ Rooted e E) ∧
      Rooted b rest
  | b, .forLoop s c B rest => (f.stm s).parent = b ∧
    ((f.block c).parent = some b ∧ Rooted c B) ∧ Rooted b rest

/-- **The body of a function**: its statements and blocks are all different,
no block is empty, and the parents are right. -/
structure Body (body : ℕ) (T : Stms ℕ ℕ) : Prop where
  spells : Spells f T
  nonempty : ∀ c ∈ T.blocks, (f.block c).stms ≠ []
  stms : (f.block body).stms = T.roots
  nodupStms : T.preorder.Nodup
  nodupBlocks : T.blocks.Nodup
  root : (f.block body).parent = none
  rooted : Rooted f body T

/-! ## Frames in the tables -/

/-- A frame whose statement is found in its block, behind the ones in front of it and
with the rest behind it. -/
structure InTables (fr : Stms.Frame ℕ ℕ) : Prop where
  parent : (f.stm fr.statement).parent = fr.block
  split : ∃ before, (f.block fr.block).stms = before ++ fr.statement :: fr.rest.roots ∧
    fr.statement ∉ before
  front : ∃ U pending, Filled f U ∧ U.front fr.block = some { fr with pending := pending }

/-- A frame left for its block `c`: that is found to be in its statement, and
the blocks after it are pending. -/
structure LeftFor (c : ℕ) (fr : Stms.Frame ℕ ℕ) : Prop where
  parent : (f.block c).parent = some fr.block
  container : (f.block fr.block).stms.find? (fun s => decide (c ∈ (f.stm s).kind.blocks)) =
    some fr.statement
  front : ∃ U before C, Filled f U ∧
    U.front fr.block = some { fr with pending := before ++ (c, C) :: fr.pending }
  notPending : c ∉ fr.pending.map Prod.fst

/-- Frames around the block `c`, one around the other. -/
def Around : ℕ → List (Stms.Frame ℕ ℕ) → Prop
  | c, [] => (f.block c).parent = none
  | c, fr :: outer => InTables f fr ∧ LeftFor f c fr ∧ Around fr.block outer

variable {f} {fr : Stms.Frame ℕ ℕ} {outer : List (Stms.Frame ℕ ℕ)} {A : Stms.Cursor ℕ ℕ}
  {T U : Stms ℕ ℕ} {b c n : ℕ}

/-- What the list of a block has before the statements `T` of its end. -/
structure Split (f : Func M) (b : ℕ) (before : List ℕ) (T : Stms ℕ ℕ) : Prop where
  stms : (f.block b).stms = before ++ T.roots
  disjoint : ∀ s ∈ T.roots, s ∉ before
  blocks : ∀ s ∈ before, ∀ c ∈ (f.stm s).kind.blocks, c ∉ T.blocks

theorem roots_of_front (h : T.front b = some fr) :
    T.roots = fr.statement :: fr.rest.roots ∧ fr.block = b := by
  cases T <;> cases h <;> exact ⟨rfl, rfl⟩

namespace Split

variable {before : List ℕ}

/-- The list after its first statement. -/
theorem rest (h : Split f b before T) (hfr : T.front b = some fr)
    (hs : fr.statement ∉ fr.rest.roots) (hsub : ∀ c ∈ fr.rest.blocks, c ∈ T.blocks)
    (hown : ∀ c ∈ (f.stm fr.statement).kind.blocks, c ∉ fr.rest.blocks) :
    Split f b (before ++ [fr.statement]) fr.rest := by
  have hroots := (roots_of_front hfr).1
  refine ⟨?_, ?_, ?_⟩
  · rw [h.stms, hroots, List.append_assoc, List.singleton_append]
  · intro s' hs' hmem
    rcases List.mem_append.mp hmem with hmem | hmem
    · exact h.disjoint s' (by rw [hroots]; exact List.mem_cons_of_mem _ hs') hmem
    · rw [List.mem_singleton.mp hmem] at hs'
      exact hs hs'
  · intro s' hs' c hc hcrest
    rcases List.mem_append.mp hs' with hs' | hs'
    · exact h.blocks s' hs' c hc (hsub c hcrest)
    · rw [List.mem_singleton.mp hs'] at hc
      exact hown c hc hcrest

/-- The first statement, with any of its blocks pending. -/
theorem inTables (h : Split f b before T) (hT : Filled f T) (pending : List (ℕ × Stms ℕ ℕ))
    (hfr : T.front b = some { fr with pending := pending })
    (hparent : (f.stm fr.statement).parent = b) : InTables f fr := by
  obtain ⟨hroots, hb⟩ := roots_of_front hfr
  obtain rfl : fr.block = b := hb
  refine ⟨hparent, ⟨before, ?_, ?_⟩, T, pending, hT, hfr⟩
  · rw [h.stms, hroots]
  · exact h.disjoint _ (by rw [hroots]; exact List.mem_cons_self)

/-- The first statement, left for one of its blocks. -/
theorem leftFor (h : Split f b before T) (hT : Filled f T)
    (entered : List (ℕ × Stms ℕ ℕ)) {C : Stms ℕ ℕ}
    (hfr : T.front b = some { fr with pending := entered ++ (c, C) :: fr.pending })
    (hparent : (f.block c).parent = some b) (hown : c ∈ (f.stm fr.statement).kind.blocks)
    (hc : c ∈ T.blocks) (hnot : c ∉ fr.pending.map Prod.fst) : LeftFor f c fr := by
  obtain ⟨hroots, hb⟩ := roots_of_front hfr
  obtain rfl : fr.block = b := hb
  refine ⟨hparent, ?_, ⟨T, entered, C, hT, hfr⟩, hnot⟩
  have hbefore : before.find? (fun s => decide (c ∈ (f.stm s).kind.blocks)) = none := by
    refine List.find?_eq_none.mpr fun s hs => ?_
    simpa using fun hmem => h.blocks s hs c hmem hc
  rw [h.stms, hroots, List.find?_append, hbefore, Option.none_or, List.find?_cons_of_pos]
  simpa using hown

end Split

/-- The list of a block itself. -/
theorem split_block (h : (f.block b).stms = T.roots) : Split f b [] T :=
  ⟨h, fun _ _ => List.not_mem_nil, fun _ hs => absurd hs List.not_mem_nil⟩

/-- **The cursors of a list** are in the tables. -/
theorem cursors_inTables {before : List ℕ} (hsplit : Split f b before T) (hfilled : Filled f T)
    (hrooted : Rooted f b T) (hstms : T.preorder.Nodup) (hblocks : T.blocks.Nodup)
    (houter : Around f b outer) : ∀ A ∈ T.cursors outer b, InTables f A.frame ∧
      (∃ U, Filled f U ∧ U.front A.frame.block = some A.frame) ∧
        Around f A.frame.block A.outer := by
  induction T generalizing b before outer with
  | nil =>
    intro A hA
    exact absurd hA List.not_mem_nil
  | leaf s rest ih =>
    obtain ⟨hk, hrest⟩ := id hfilled
    obtain ⟨hparent, hrestrooted⟩ := hrooted
    obtain ⟨hs, hstms⟩ := List.nodup_cons.mp hstms
    intro A hA
    rcases List.mem_cons.mp hA with rfl | hA
    · exact ⟨hsplit.inTables hfilled [] rfl hparent, ⟨_, hfilled, rfl⟩, houter⟩
    · have hsplit' := hsplit.rest rfl (fun hmem => hs (Stms.mem_preorder_of_mem_roots hmem))
        (fun c hc => hc) (fun c hc => by rw [hk] at hc; exact absurd hc List.not_mem_nil)
      exact ih hsplit' hrest hrestrooted hstms hblocks houter A hA
  | ifElse s t e T E rest ihT ihE ih =>
    obtain ⟨⟨test, hk⟩, ⟨hT, -, hTfilled⟩, ⟨hE, -, hEfilled⟩, hrest⟩ := id hfilled
    obtain ⟨hparent, ⟨htparent, hTrooted⟩, ⟨heparent, hErooted⟩, hrestrooted⟩ := hrooted
    have hown : (f.stm s).kind.blocks = [t, e] := by rw [hk]; rfl
    obtain ⟨hs, hstms⟩ := List.nodup_cons.mp hstms
    obtain ⟨hstmsTE, hreststms, -⟩ := List.nodup_append.mp hstms
    obtain ⟨hTstms, hEstms, -⟩ := List.nodup_append.mp hstmsTE
    obtain ⟨hTblocks, hblocks, -⟩ := List.nodup_append.mp hblocks
    obtain ⟨ht, hblocks⟩ := List.nodup_cons.mp hblocks
    obtain ⟨hEblocks, hblocks, -⟩ := List.nodup_append.mp hblocks
    obtain ⟨he, hrestblocks⟩ := List.nodup_cons.mp hblocks
    have hte : t ≠ e := fun h => ht (h ▸ List.mem_append_right _ List.mem_cons_self)
    have htrest : t ∉ rest.blocks :=
      fun h => ht (List.mem_append_right _ (List.mem_cons_of_mem _ h))
    -- inside the true branch the false one is pending, inside that nothing is
    have hroundT : Around f t (⟨b, s, [(e, E)], rest⟩ :: outer) :=
      ⟨hsplit.inTables hfilled [(t, T), (e, E)] rfl hparent,
        hsplit.leftFor hfilled [] rfl htparent (by rw [hown]; simp) (by simp [Stms.blocks])
          (by simpa using hte), houter⟩
    have hroundE : Around f e (⟨b, s, [], rest⟩ :: outer) :=
      ⟨hsplit.inTables hfilled [(t, T), (e, E)] rfl hparent,
        hsplit.leftFor hfilled [(t, T)] rfl heparent (by rw [hown]; simp) (by simp [Stms.blocks])
          (by simp), houter⟩
    have hsplit' := hsplit.rest (show _ = some
      (⟨b, s, [(t, T), (e, E)], rest⟩ : Stms.Frame ℕ ℕ) from rfl)
      (fun hmem => hs (List.mem_append_right _ (Stms.mem_preorder_of_mem_roots hmem)))
      (fun c hc => by simp [Stms.blocks, hc])
      (fun c hc => by
        rw [hown] at hc
        rcases List.mem_pair.mp hc with rfl | rfl
        · exact htrest
        · exact he)
    intro A hA
    simp only [Stms.cursors, List.mem_cons, List.mem_append] at hA
    rcases hA with rfl | hA | hA | hA
    · exact ⟨hsplit.inTables hfilled _ rfl hparent, ⟨_, hfilled, rfl⟩, houter⟩
    · exact ihT (split_block hT) hTfilled hTrooted hTstms hTblocks hroundT A hA
    · exact ihE (split_block hE) hEfilled hErooted hEstms hEblocks hroundE A hA
    · exact ih hsplit' hrest hrestrooted hreststms hrestblocks houter A hA
  | forLoop s c B rest ihB ih =>
    obtain ⟨⟨init, test, incr, hk⟩, ⟨hB, -, hBfilled⟩, hrest⟩ := id hfilled
    obtain ⟨hparent, ⟨hcparent, hBrooted⟩, hrestrooted⟩ := hrooted
    have hown : (f.stm s).kind.blocks = [c] := by rw [hk]; rfl
    obtain ⟨hs, hstms⟩ := List.nodup_cons.mp hstms
    obtain ⟨hBstms, hreststms, -⟩ := List.nodup_append.mp hstms
    obtain ⟨hBblocks, hblocks, -⟩ := List.nodup_append.mp hblocks
    obtain ⟨hc, hrestblocks⟩ := List.nodup_cons.mp hblocks
    have hround : Around f c (⟨b, s, [], rest⟩ :: outer) :=
      ⟨hsplit.inTables hfilled [(c, B)] rfl hparent,
        hsplit.leftFor hfilled [] rfl hcparent (by rw [hown]; simp) (by simp [Stms.blocks])
          (by simp), houter⟩
    have hsplit' := hsplit.rest (show _ = some (⟨b, s, [(c, B)], rest⟩ : Stms.Frame ℕ ℕ) from rfl)
      (fun hmem => hs (List.mem_append_right _ (Stms.mem_preorder_of_mem_roots hmem)))
      (fun c hc => by simp [Stms.blocks, hc])
      (fun c' hc' => by rw [hown] at hc'; rwa [List.mem_singleton.mp hc'])
    intro A hA
    simp only [Stms.cursors, List.mem_cons, List.mem_append] at hA
    rcases hA with rfl | hA | hA
    · exact ⟨hsplit.inTables hfilled _ rfl hparent, ⟨_, hfilled, rfl⟩, houter⟩
    · exact ihB (split_block hB) hBfilled hBrooted hBstms hBblocks hround A hA
    · exact ih hsplit' hrest hrestrooted hreststms hrestblocks houter A hA

/-! ## The walkers of the stack -/

/-- The walker of a frame, with all the branches of its statement. -/
def walkerAt (f : Func M) (fr : Stms.Frame ℕ ℕ) : BlockWalker :=
  BlockWalker.advanceSelector f
    { block := fr.block, statement := some fr.statement, blockIt := fr.rest.roots } fr.statement

theorem walkerAt_atFrame {pending : List (ℕ × Stms ℕ ℕ)} (hU : Filled f U)
    (hfront : U.front fr.block = some { fr with pending := pending }) :
    AtFrame f (walkerAt f fr) { fr with pending := pending } ∧
      ((walkerAt f fr).release f).2 = ((walkerAt f fr).branches f).head? :=
  atFrame_selector hU hfront _ rfl rfl rfl

/-- `CreateBlockWalkerAtStatement` at a statement of the block. -/
theorem createAtStatement_eq (h : InTables f fr) :
    BlockWalker.createAtStatement f fr.block fr.statement = some (walkerAt f fr) := by
  obtain ⟨before, hstms, hs⟩ := h.split
  have hdrop : ((f.block fr.block).stms.dropWhile fun s' => decide (s' ≠ fr.statement)) =
      fr.statement :: fr.rest.roots := by
    rw [hstms, List.dropWhile_append_of_pos]
    · exact List.dropWhile_cons_of_neg (by simp)
    · intro s' hs'
      exact decide_eq_true fun heq => hs (heq ▸ hs')
  have hahead : BlockWalker.ahead f { block := fr.block } = (f.block fr.block).stms := rfl
  rw [BlockWalker.createAtStatement, BlockWalker.advanceToStatement, hahead, hdrop]
  rfl

/-- The walker of a block the stack is built from: the branches up to the
one it comes from are gone. -/
theorem resetBranch_back {w : BlockWalker} (hU : Filled f U) {entered : List (ℕ × Stms ℕ ℕ)}
    {C : Stms ℕ ℕ}
    (hfront : U.front fr.block = some { fr with pending := entered ++ (c, C) :: fr.pending })
    (hnot : c ∉ fr.pending.map Prod.fst)
    (hat : AtFrame f w { fr with pending := entered ++ (c, C) :: fr.pending }) :
    Back f (w.resetBranch f fr.statement c) fr := by
  obtain ⟨b, s, pending, rest⟩ := fr
  obtain ⟨hblock, hst, hstands⟩ := hat
  obtain ⟨-, hbr, hfill, hrest, hrestfilled⟩ := hstands
  cases U with
  | nil => cases hfront
  | leaf s' rest' =>
    simp only [Stms.front, Option.some.injEq, Stms.Frame.mk.injEq] at hfront
    exact absurd hfront.2.2.1 (by simp)
  | forLoop s' c' B rest' =>
    simp only [Stms.front, Option.some.injEq, Stms.Frame.mk.injEq] at hfront
    obtain ⟨-, rfl, hpending, rfl⟩ := hfront
    obtain ⟨⟨init, test, incr, hk⟩, -, -⟩ := hU
    obtain ⟨rfl, hp⟩ | ⟨a, rfl, hp⟩ := List.append_eq_cons_iff.mp hpending.symm
    · cases hp
      have hreset : w.resetBranch f s' c = { w with forBody := none } := by
        rw [BlockWalker.resetBranch, hk]
      have hkind : BlockWalker.currentKind f { w with forBody := none } =
          some (.forLoop init test incr c) := by
        simp only [BlockWalker.currentKind, hst, Option.map_some, hk]
      rw [hreset]
      refine ⟨⟨hblock, hst, ⟨by simp [hst], ?_, by simp, hrest, hrestfilled⟩⟩, ?_⟩
      · rw [BlockWalker.branches, hkind]
        rfl
      · rw [BlockWalker.release, hkind]
    · exact absurd hp (by simp)
  | ifElse s' t e T E rest' =>
    simp only [Stms.front, Option.some.injEq, Stms.Frame.mk.injEq] at hfront
    obtain ⟨-, rfl, hpending, rfl⟩ := hfront
    obtain ⟨⟨test, hk⟩, -, -⟩ := hU
    have hkind : ∀ a b, BlockWalker.currentKind f { w with ifBody := a, elseBody := b } =
        some (.ifElse test t e) := by
      intro a b
      simp only [BlockWalker.currentKind, hst, Option.map_some, hk]
    have helse : w.elseBody = some e := by
      rw [BlockWalker.branches, hkind w.ifBody w.elseBody] at hbr
      have hbr' : w.ifBody.toList ++ w.elseBody.toList = [t, e] :=
        hbr.trans (congrArg (List.map Prod.fst) hpending.symm)
      cases hi : w.ifBody <;> cases he : w.elseBody <;> simp [hi, he] at hbr' ⊢
      exact hbr'.2
    obtain ⟨rfl, hp⟩ | ⟨a, rfl, hp⟩ := List.append_eq_cons_iff.mp hpending.symm
    · -- in the true block: the else block is left
      cases hp
      have hne : c ≠ e := by simpa using hnot
      have hreset : w.resetBranch f s' c = { w with ifBody := none, elseBody := w.elseBody } := by
        rw [BlockWalker.resetBranch, hk]
        simp only [hne, if_false]
      rw [hreset]
      refine ⟨⟨hblock, hst, ⟨by simp [hst], ?_, ?_, hrest, hrestfilled⟩⟩, ?_⟩
      · rw [BlockWalker.branches, hkind]
        simp [helse]
      · intro q hq
        exact hfill q (List.mem_append_right _ (List.mem_cons_of_mem _ hq))
      · rw [BlockWalker.release, hkind]
    · -- in the else block: none is left
      obtain ⟨rfl, hp⟩ | ⟨a, rfl, hp⟩ := List.append_eq_cons_iff.mp hp.symm
      · cases hp
        have hreset : w.resetBranch f s' c = { w with ifBody := none, elseBody := none } := by
          rw [BlockWalker.resetBranch, hk]
          simp only [if_true]
        rw [hreset]
        refine ⟨⟨hblock, hst, ⟨by simp [hst], ?_, by simp, hrest, hrestfilled⟩⟩, ?_⟩
        · rw [BlockWalker.branches, hkind]
          rfl
        · rw [BlockWalker.release, hkind]
      · exact absurd hp (by simp)

/-- `find_container_stm` of a statement in a block of another. -/
theorem findContainerStm_eq {o : Stms.Frame ℕ ℕ} (hfr : InTables f fr)
    (hleft : LeftFor f fr.block o) : findContainerStm f fr.statement = some o.statement := by
  rw [findContainerStm, hfr.parent, hleft.parent]
  exact hleft.container

/-- **The stack is built** from a statement outwards, each walker in its
place. -/
theorem createNestedBlocks_eq (hfr : InTables f fr) (hround : Around f fr.block outer)
    (hn : outer.length < n) (branch : Option ℕ) : ∃ ws,
      FunctionWalker.createNestedBlocks f n branch fr.block fr.statement =
        some ((match branch with
          | some b => (walkerAt f fr).resetBranch f fr.statement b
          | none => walkerAt f fr) :: ws) ∧
      List.Forall₂ (Back f) ws outer := by
  have hw := createAtStatement_eq hfr
  obtain ⟨n, rfl⟩ : ∃ m, n = m + 1 := ⟨n - 1, by omega⟩
  induction outer generalizing fr n branch with
  | nil =>
    refine ⟨[], ?_, .nil⟩
    rw [FunctionWalker.createNestedBlocks, hw, show (f.block fr.block).parent = none from hround]
    rfl
  | cons o outer ih =>
    obtain ⟨ho, hleft, hround'⟩ := hround
    obtain ⟨U, entered, C, hU, hfront⟩ := hleft.front
    have hwo := createAtStatement_eq ho
    have hback := resetBranch_back hU hfront hleft.notPending (walkerAt_atFrame hU hfront).1
    obtain ⟨n, rfl⟩ : ∃ m, n = m + 1 := ⟨n - 1, by simp at hn; omega⟩
    obtain ⟨ws, hws, hbacks⟩ := ih ho hround' (some fr.block) hwo n (by simpa using hn)
    refine ⟨_ :: ws, ?_, .cons hback hbacks⟩
    rw [FunctionWalker.createNestedBlocks, hw, hleft.parent, findContainerStm_eq hfr hleft]
    simp only [Option.bind_eq_bind, Option.bind_some]
    rw [hws]
    rfl

/-- **`CreateFunctionWalkerAtStatement`** is at the cursor of its statement. -/
theorem createFunctionWalkerAtStatement_placed (hfr : InTables f A.frame)
    (hfront : ∃ U, Filled f U ∧ U.front A.frame.block = some A.frame)
    (hround : Around f A.frame.block A.outer) (hn : A.outer.length < n) :
    ∃ w, FunctionWalker.createFunctionWalkerAtStatement f n A.statement = some w ∧
      Placed f (Stms.rootOf A.frame.block A.outer) w (some A) := by
  obtain ⟨U, hU, hfront⟩ := hfront
  obtain ⟨ws, hws, hbacks⟩ := createNestedBlocks_eq hfr hround hn none
  obtain ⟨hat, hfirst⟩ := walkerAt_atFrame hU hfront
  refine ⟨{ blockWalker := walkerAt f A.frame, nestedBlocks := ws }, ?_, hat, hfirst, hbacks, rfl⟩
  rw [FunctionWalker.createFunctionWalkerAtStatement, Stms.Cursor.statement, hfr.parent, hws]

/-! ## The walker that has advanced -/

theorem Placed.full {body : ℕ} {w : FunctionWalker} (h : Placed f body w (some A)) :
    A.frame.Full ∧ ∀ fr ∈ A.outer, fr.Full := by
  obtain ⟨hat, -, houter, -⟩ := h
  refine ⟨hat.full, ?_⟩
  generalize w.nestedBlocks = ws, A.outer = outer at houter
  induction houter with
  | nil => exact fun fr hfr => absurd hfr List.not_mem_nil
  | cons hback _ ih =>
    intro fr hfr
    rcases List.mem_cons.mp hfr with rfl | hfr
    · exact hback.1.full
    · exact ih fr hfr

/-- From a cursor, `Advance` comes to each statement ahead. -/
theorem advanceTo_placed {body s : ℕ} {w : FunctionWalker} (h : Placed f body w (some A))
    (hs : s ∈ (A :: A.ahead).map Stms.Cursor.statement) (hn : A.ahead.length < n) :
    ∃ w' A', FunctionWalker.advanceTo f s n w = some w' ∧ Placed f body w' (some A') ∧
      A' ∈ A :: A.ahead ∧ A'.statement = s := by
  induction n generalizing A w with
  | zero => exact absurd hn (Nat.not_lt_zero _)
  | succ n ih =>
    have hst : w.blockWalker.statement = some A.statement := h.1.statement
    rw [FunctionWalker.advanceTo, hst]
    by_cases hA : A.statement = s
    · exact ⟨w, A, by rw [if_pos (by rw [hA])], h, List.mem_cons_self, hA⟩
    · rw [if_neg (by simpa using hA)]
      have hs' : s ∈ A.ahead.map Stms.Cursor.statement := by
        rw [List.map_cons, List.mem_cons] at hs
        exact hs.resolve_left (Ne.symm hA)
      have hreads := Stms.step_reads h.full.1 h.full.2
      cases hahead : A.ahead with
      | nil =>
        rw [hahead] at hs'
        exact absurd hs' List.not_mem_nil
      | cons B l =>
        rw [hahead] at hs' hreads hn
        obtain ⟨hdest, rfl⟩ := hreads
        obtain ⟨v, hv, hplaced, -, -⟩ := advance_follows h
        rw [hdest] at hv hplaced
        obtain ⟨w', A', hto, hplaced', hmem, hs''⟩ := ih hplaced hs' (by simpa using hn)
        rw [hv]
        exact ⟨w', A', hto, hplaced', List.mem_cons_of_mem _ hmem, hs''⟩

variable {body : ℕ}

/-- `Advance` from the beginning comes to each statement. -/
theorem advanceTo_create {s : ℕ} (h : Body f body T) (hs : s ∈ T.preorder)
    (hn : T.preorder.length < n) : ∃ w A, FunctionWalker.advanceTo f s n (.create body) = some w ∧
      Placed f body w (some A) ∧ A ∈ T.cursors [] body ∧ A.statement = s := by
  obtain ⟨n, rfl⟩ : ∃ m, n = m + 1 := ⟨n - 1, by omega⟩
  have hlen : (T.cursors [] body).length = T.preorder.length := by
    rw [← T.map_statement_cursors [] body, List.length_map]
  cases hfr : T.front body with
  | none =>
    rw [Stms.front_eq_none.mp hfr] at hs
    exact absurd hs List.not_mem_nil
  | some fr =>
    have hcursors : T.cursors [] body = ⟨fr, []⟩ :: Stms.Cursor.ahead ⟨fr, []⟩ := by
      rw [Stms.cursors_of_front hfr, Stms.Cursor.ahead, Stms.aheadAll, Stms.aheadAll,
        List.append_nil]
    have hstart := (start_follows (w := FunctionWalker.create body) h.stms
      (h.spells.filled h.nonempty) ⟨rfl, rfl, rfl⟩).1
    rw [Stms.onward, hfr] at hstart
    obtain ⟨v, hv, hplaced, -, -⟩ := hstart
    rw [hcursors] at hlen ⊢
    rw [← T.map_statement_cursors [] body, hcursors] at hs
    obtain ⟨w, A, hto, hplaced', hmem, hA⟩ := advanceTo_placed hplaced hs (n := n)
      (by simp at hlen; omega)
    refine ⟨w, A, ?_, hplaced', hmem, hA⟩
    rw [FunctionWalker.advanceTo, if_neg (by simp [FunctionWalker.create]), hv]
    exact hto

theorem outer_length {outer : List (Stms.Frame ℕ ℕ)} (T : Stms ℕ ℕ) (b : ℕ) :
    ∀ A ∈ T.cursors outer b, A.outer.length < outer.length + T.preorder.length := by
  induction T generalizing outer b with
  | nil => exact fun A hA => absurd hA List.not_mem_nil
  | leaf s rest ih =>
    intro A hA
    rcases List.mem_cons.mp hA with rfl | hA
    · simp [Stms.preorder]
    · have := ih b A hA
      simp only [Stms.preorder, List.length_cons]
      omega
  | ifElse s t e T E rest ihT ihE ih =>
    intro A hA
    simp only [Stms.cursors, List.mem_cons, List.mem_append] at hA
    simp only [Stms.preorder, List.length_cons, List.length_append]
    rcases hA with rfl | hA | hA | hA
    · simp only
      omega
    · have := ihT t A hA
      simp only [List.length_cons] at this
      omega
    · have := ihE e A hA
      simp only [List.length_cons] at this
      omega
    · have := ih b A hA
      omega
  | forLoop s c B rest ihB ih =>
    intro A hA
    simp only [Stms.cursors, List.mem_cons, List.mem_append] at hA
    simp only [Stms.preorder, List.length_cons, List.length_append]
    rcases hA with rfl | hA | hA
    · simp only
      omega
    · have := ihB c A hA
      simp only [List.length_cons] at this
      omega
    · have := ih b A hA
      omega

/-- The cursor at a statement. -/
theorem Body.placed (h : Body f body T) {A : Stms.Cursor ℕ ℕ} (hA : A ∈ T.cursors [] body)
    (hn : T.preorder.length < n) :
    ∃ w, FunctionWalker.createFunctionWalkerAtStatement f n A.statement = some w ∧
      Placed f (Stms.rootOf A.frame.block A.outer) w (some A) := by
  have hroot : Around f body [] := h.root
  obtain ⟨hfr, hfront, hround⟩ := cursors_inTables (split_block h.stms)
    (h.spells.filled h.nonempty) h.rooted h.nodupStms h.nodupBlocks hroot A hA
  have hlen := outer_length T body A hA
  exact createFunctionWalkerAtStatement_placed hfr hfront hround
    (by simp only [List.length_nil] at hlen; omega)

/-- **A walker created at a statement cannot be told** from one that has
advanced to it: at every statement both exist, and give the same views of any
calls of `Advance` and `Next`. -/
theorem createFunctionWalkerAtStatement_views (h : Body f body T) {s : ℕ} (hs : s ∈ T.preorder)
    (hn : T.preorder.length < n) (cs : List Call) :
    ∃ w w' vs, FunctionWalker.createFunctionWalkerAtStatement f n s = some w ∧
      FunctionWalker.advanceTo f s n (.create body) = some w' ∧
      w.blockWalker.statement = some s ∧ w'.blockWalker.statement = some s ∧
      FunctionWalker.views f cs w = some vs ∧ FunctionWalker.views f cs w' = some vs := by
  obtain ⟨w', A, hto, hplaced', hA, rfl⟩ := advanceTo_create h hs hn
  obtain ⟨w, hcreate, hplaced⟩ := h.placed hA hn
  rw [hplaced'.2.2.2] at hplaced
  obtain ⟨vs, hvs, hvs'⟩ := views_eq h.stms (h.spells.filled h.nonempty) cs hplaced hplaced'
  exact ⟨w, w', vs, hcreate, hto, hplaced.1.statement, hplaced'.1.statement, hvs, hvs'⟩

/-- The tables of `nest`, a statement in the else block. -/
theorem createFunctionWalkerAtStatement_views_nest : ∃ w w' vs,
    FunctionWalker.createFunctionWalkerAtStatement FunctionWalker.nest 6 3 = some w ∧
      FunctionWalker.advanceTo FunctionWalker.nest 3 6 (.create 0) = some w' ∧
      w.blockWalker.statement = some 3 ∧ w'.blockWalker.statement = some 3 ∧
      FunctionWalker.views FunctionWalker.nest [.next, .advance, .advance] w = some vs ∧
      FunctionWalker.views FunctionWalker.nest [.next, .advance, .advance] w' = some vs :=
  createFunctionWalkerAtStatement_views
    (T := .forLoop 0 1 (.ifElse 1 2 3 (.leaf 2 .nil) (.leaf 3 .nil) .nil) (.leaf 4 .nil))
    ⟨⟨⟨_, _, _, rfl⟩, rfl, ⟨.inl ⟨_, rfl⟩, rfl, rfl, ⟨rfl, trivial⟩, ⟨rfl, trivial⟩, trivial⟩,
      rfl, trivial⟩, by decide, rfl, by decide, by decide, rfl,
      ⟨rfl, ⟨rfl, rfl, ⟨rfl, rfl, trivial⟩, ⟨rfl, rfl, trivial⟩, trivial⟩, rfl, trivial⟩⟩
    (by decide) (by decide) _

end Walker

end CLSmith
