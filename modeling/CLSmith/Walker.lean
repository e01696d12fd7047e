import CLSmith.Goto.Blocks
import CLSmith.Common.Cursor
import Mathlib.Algebra.BigOperators.Group.List.Basic
/-!
# Walking through a function

`BlockWalker` and `FunctionWalker`: a position in the statements of a block,
with the branches of the statement there that are still to be entered, and the
stack of the blocks around it. `Advance` is followed from a new walker until
it returns false. What a goto records of its destination is left out: it has
no part in advancing.
-/

namespace CLSmith

namespace Walker

open Generate Common

variable {M : Type}

/-- **A walker of one block**: its iterator is the statements not reached
yet. A branch waits as a new walker, which is as much as its block. -/
structure BlockWalker where
  block : ℕ
  statement : Option ℕ := none
  blockIt : List ℕ := []
  forBody : Option ℕ := none
  ifBody : Option ℕ := none
  elseBody : Option ℕ := none

namespace BlockWalker

variable (f : Func M) (w : BlockWalker)

/-- The statements `AdvanceOne` goes through: a walker at no statement begins
at the first. -/
def ahead : List ℕ :=
  match w.statement with
  | none => (f.block w.block).stms
  | some _ => w.blockIt

/-- `AdvanceSelector`. -/
def advanceSelector (s : ℕ) : BlockWalker :=
  match (f.stm s).kind with
  | .forLoop _ _ _ b => { w with forBody := some b }
  | .ifElse _ t e => { w with ifBody := some t, elseBody := some e }
  | _ => w

/-- `AdvanceBlock`: `AdvanceOne`, then the branches of the statement. -/
def advanceBlock : BlockWalker × Bool :=
  match w.ahead f with
  | [] => ({ w with statement := none, blockIt := [] }, false)
  | s :: rest => (advanceSelector f { w with statement := some s, blockIt := rest } s, true)

/-- `GetCurrentStatementType`. -/
def currentKind : Option (Kind M) := w.statement.map fun s => (f.stm s).kind

/-- `MustEnterBranch`; there is a statement to ask. -/
def mustEnterBranch : Option Bool :=
  (w.currentKind f).map fun
    | .forLoop _ _ _ _ => w.forBody.isSome
    | .ifElse _ _ _ => w.ifBody.isSome || w.elseBody.isSome
    | _ => false

/-- The branch entered when the walker goes on from its statement, released
from it. -/
def release : BlockWalker × Option ℕ :=
  match w.currentKind f with
  | some (.forLoop _ _ _ _) => ({ w with forBody := none }, w.forBody)
  | some (.ifElse _ _ _) => ({ w with ifBody := none }, w.ifBody)
  | _ => (w, none)

end BlockWalker

/-- **A walker of a function**: the walker of the block it is in, those of the blocks
around, and how many blocks the last call has entered and left. -/
structure FunctionWalker where
  blockWalker : BlockWalker
  nestedBlocks : List BlockWalker := []
  blocksEntered : ℕ := 0
  blocksExited : ℕ := 0

namespace FunctionWalker

variable (f : Func M) (w : FunctionWalker)

/-- The walker of a function whose body is `body`. -/
def create (body : ℕ) : FunctionWalker := { blockWalker := { block := body } }

/-- How deep in blocks the walker is. -/
def depth : ℕ := w.nestedBlocks.length

/-- `EnterBranch`, which leaves `bw` on the stack, and its count. -/
def enterBranch (bw : BlockWalker) (b : ℕ) : FunctionWalker :=
  { w with
    blockWalker := { block := b }
    nestedBlocks := bw :: w.nestedBlocks
    blocksEntered := w.blocksEntered + 1 }

/-- The end of `Advance`, back at a statement with a branch left. -/
def enterElse : Option (FunctionWalker × Bool) :=
  match w.blockWalker.currentKind f with
  | some (.forLoop _ _ _ _) => if w.blockWalker.forBody.isNone then some (w, true) else none
  | some (.ifElse _ _ _) =>
    if w.blockWalker.ifBody.isSome then none
    else
      let w' := match w.blockWalker.elseBody with
        | some e => w.enterBranch { w.blockWalker with elseBody := none } e
        | none => w
      match w'.blockWalker.advanceBlock f with
      | (bw, true) => some ({ w' with blockWalker := bw }, true)
      | (_, false) => none
  | _ => some (w, true)

/-- The loop of `Advance` at the end of a block, over the stack. -/
def exitBlocks : List BlockWalker → FunctionWalker → Option (FunctionWalker × Bool)
  | [], w => some ({ w with nestedBlocks := [] }, false)
  | bw :: nested, w =>
    let w := { w with
      blockWalker := bw, nestedBlocks := nested, blocksExited := w.blocksExited + 1 }
    match bw.mustEnterBranch f with
    | none => none
    | some true => w.enterElse f
    | some false =>
      match bw.advanceBlock f with
      | (bw, true) => some ({ w with blockWalker := bw }, true)
      | (bw, false) => exitBlocks nested { w with blockWalker := bw }

/-- **`Advance`**; an assertion that does not hold is a failure. A branch of the
statement is entered first, else the block goes on, else it is left. -/
def advance : Option (FunctionWalker × Bool) :=
  let w := { w with blocksEntered := 0, blocksExited := 0 }
  let w := match w.blockWalker.release f with
    | (bw, some b) => w.enterBranch bw b
    | (bw, none) => { w with blockWalker := bw }
  match w.blockWalker.advanceBlock f with
  | (bw, true) => some ({ w with blockWalker := bw }, true)
  | (bw, false) => exitBlocks f w.nestedBlocks { w with blockWalker := bw }

/-- **`Advance` until it returns false**: the walker after each call, and
after the last. -/
def walk : ℕ → FunctionWalker → Option (List FunctionWalker × FunctionWalker)
  | 0, _ => none
  | n + 1, w => do
    let (w, more) ← w.advance f
    if more then do
      let (ws, last) ← walk n w
      some (w :: ws, last)
    else some ([], w)

end FunctionWalker

/-! ## What is ahead of a walker -/

/-- **The tables spell a list of statements**, with all the blocks in it. The
else block of an EMI section is a dummy one. -/
def Spells (f : Func M) : Stms ℕ ℕ → Prop
  | .nil => True
  | .leaf s rest => (f.stm s).kind.blocks = [] ∧ Spells f rest
  | .ifElse s t e T E rest =>
    ((∃ test, (f.stm s).kind = .ifElse test t e) ∨
        (∃ i j, (f.stm s).kind = .emi i j t e) ∧ E = .nil) ∧
      (f.block t).stms = T.roots ∧ (f.block e).stms = E.roots ∧
      Spells f T ∧ Spells f E ∧ Spells f rest
  | .forLoop s b B rest =>
    (∃ init test incr, (f.stm s).kind = .forLoop init test incr b) ∧
      (f.block b).stms = B.roots ∧ Spells f B ∧ Spells f rest

/-- The same with no block empty: there is no EMI section. -/
def Filled (f : Func M) : Stms ℕ ℕ → Prop
  | .nil => True
  | .leaf s rest => (f.stm s).kind.blocks = [] ∧ Filled f rest
  | .ifElse s t e T E rest =>
    (∃ test, (f.stm s).kind = .ifElse test t e) ∧
      ((f.block t).stms = T.roots ∧ T.roots ≠ [] ∧ Filled f T) ∧
      ((f.block e).stms = E.roots ∧ E.roots ≠ [] ∧ Filled f E) ∧ Filled f rest
  | .forLoop s b B rest =>
    (∃ init test incr, (f.stm s).kind = .forLoop init test incr b) ∧
      ((f.block b).stms = B.roots ∧ B.roots ≠ [] ∧ Filled f B) ∧ Filled f rest

theorem Spells.filled {f : Func M} {T : Stms ℕ ℕ} (h : Spells f T)
    (hne : ∀ c ∈ T.blocks, (f.block c).stms ≠ []) : Filled f T := by
  induction T with
  | nil => trivial
  | leaf s rest ih => exact ⟨h.1, ih h.2 hne⟩
  | ifElse s t e T E rest ihT ihE ih =>
    obtain ⟨hk, ht, he, hT, hE, hrest⟩ := h
    simp only [Stms.blocks, List.mem_append, List.mem_cons] at hne
    have hneT : T.roots ≠ [] := ht ▸ hne t (by simp)
    have hneE : E.roots ≠ [] := he ▸ hne e (by simp)
    refine ⟨?_, ⟨ht, hneT, ihT hT fun c hc => hne c (by simp [hc])⟩,
      ⟨he, hneE, ihE hE fun c hc => hne c (by simp [hc])⟩,
      ih hrest fun c hc => hne c (by simp [hc])⟩
    rcases hk with hk | ⟨-, rfl⟩
    · exact hk
    · exact absurd rfl hneE
  | forLoop s b B rest ihB ih =>
    obtain ⟨hk, hb, hB, hrest⟩ := h
    simp only [Stms.blocks, List.mem_append, List.mem_cons] at hne
    exact ⟨hk, ⟨hb, hb ▸ hne b (by simp), ihB hB fun c hc => hne c (by simp [hc])⟩,
      ih hrest fun c hc => hne c (by simp [hc])⟩

/-- The branches a walker has still to enter, in their order. -/
def BlockWalker.branches (f : Func M) (w : BlockWalker) : List ℕ :=
  match w.currentKind f with
  | some (.forLoop _ _ _ _) => w.forBody.toList
  | some (.ifElse _ _ _) => w.ifBody.toList ++ w.elseBody.toList
  | _ => []

/-- **The walker stands at a statement** with the branches `P` still to be
entered and the statements `U` after it. -/
structure Stands (f : Func M) (w : BlockWalker) (P : List (ℕ × Stms ℕ ℕ)) (U : Stms ℕ ℕ) :
    Prop where
  statement : w.statement.isSome
  branches : w.branches f = P.map Prod.fst
  filled : ∀ q ∈ P, (f.block q.1).stms = q.2.roots ∧ q.2.roots ≠ [] ∧ Filled f q.2
  rest : w.blockIt = U.roots
  filledRest : Filled f U

/-- A statement, the block it stands in and the depth of that. -/
abbrev Visit := ℕ × ℕ × ℕ

/-- What a walker of `b`, at depth `d`, has ahead. -/
def visitsAhead (P : List (ℕ × Stms ℕ ℕ)) (U : Stms ℕ ℕ) (b d : ℕ) : List Visit :=
  P.flatMap (fun q => q.2.visits q.1 (d + 1)) ++ U.visits b d

/-- **The walkers on the stack** have the visits `todo` ahead; each is back
from the branch it would enter first. -/
def Nested (f : Func M) : List BlockWalker → List Visit → Prop
  | [], todo => todo = []
  | bw :: ws, todo => ∃ P U todo', Stands f bw P U ∧ (bw.release f).2 = none ∧ Nested f ws todo' ∧
      todo = visitsAhead P U bw.block ws.length ++ todo'

/-- **The walker is at the visit `v`** with the visits `todo` ahead. It says all that
the calls of `Advance` still to come depend on. -/
structure At (f : Func M) (w : FunctionWalker) (v : Visit) (todo : List Visit) : Prop where
  statement : w.blockWalker.statement = some v.1
  block : w.blockWalker.block = v.2.1
  depth : w.depth = v.2.2
  ahead : ∃ P U todo', Stands f w.blockWalker P U ∧
    (w.blockWalker.release f).2 = (w.blockWalker.branches f).head? ∧
    Nested f w.nestedBlocks todo' ∧
    todo = visitsAhead P U w.blockWalker.block w.depth ++ todo'

section Advance

variable {f : Func M} {bw : BlockWalker} {P : List (ℕ × Stms ℕ ℕ)} {U : Stms ℕ ℕ}

/-- `AdvanceBlock` at the end of a block. -/
theorem advanceBlock_end (h : bw.ahead f = U.roots) (hU : U.roots = []) :
    (bw.advanceBlock f).2 = false := by
  unfold BlockWalker.advanceBlock
  rw [h, hU]

theorem Stands.ahead (h : Stands f bw P U) : bw.ahead f = U.roots := by
  obtain ⟨s, hs⟩ := Option.isSome_iff_exists.mp h.statement
  unfold BlockWalker.ahead
  rw [hs, ← h.rest]

/-- **A walker of one block at a frame**: at its statement, with its branches
and statements ahead. -/
structure AtFrame (f : Func M) (bw : BlockWalker) (fr : Stms.Frame ℕ ℕ) : Prop where
  block : bw.block = fr.block
  statement : bw.statement = some fr.statement
  stands : Stands f bw fr.pending fr.rest

/-- `AdvanceSelector`: all the branches of a statement. -/
theorem atFrame_selector {fr : Stms.Frame ℕ ℕ} {b : ℕ} (hU : Filled f U)
    (hfront : U.front b = some fr) (w : BlockWalker) (hw : w.statement = some fr.statement)
    (hb : w.block = b) (hit : w.blockIt = fr.rest.roots) :
    AtFrame f (w.advanceSelector f fr.statement) fr ∧
      ((w.advanceSelector f fr.statement).release f).2 =
        ((w.advanceSelector f fr.statement).branches f).head? := by
  cases U with
  | nil => cases hfront
  | leaf s rest =>
    obtain ⟨hk, hrest⟩ := hU
    cases hfront
    have hsel : w.advanceSelector f s = w := by
      unfold BlockWalker.advanceSelector
      split <;> simp_all [Kind.blocks]
    have hbr : w.branches f = [] ∧ (w.release f).2 = none := by
      unfold BlockWalker.branches BlockWalker.release BlockWalker.currentKind
      rw [hw, Option.map_some]
      constructor <;> split <;> simp_all [Kind.blocks]
    rw [hsel]
    refine ⟨⟨hb, hw, by simp [hw], hbr.1, fun q hq => absurd hq List.not_mem_nil, hit, hrest⟩, ?_⟩
    rw [hbr.1, hbr.2]
    rfl
  | ifElse s t e T E rest =>
    obtain ⟨⟨test, hk⟩, hT, hE, hrest⟩ := hU
    cases hfront
    have hsel : w.advanceSelector f s = { w with ifBody := some t, elseBody := some e } := by
      simp only [BlockWalker.advanceSelector, hk]
    have hkind : BlockWalker.currentKind f { w with ifBody := some t, elseBody := some e } =
        some (.ifElse test t e) := by
      simp only [BlockWalker.currentKind, hw, Option.map_some, hk]
    rw [hsel]
    refine ⟨⟨hb, hw, by simp [hw], ?_, ?_, hit, hrest⟩, ?_⟩
    · simp [BlockWalker.branches, hkind]
    · intro q hq
      rcases List.mem_pair.mp hq with rfl | rfl
      · exact hT
      · exact hE
    · simp [BlockWalker.branches, BlockWalker.release, hkind]
  | forLoop s c B rest =>
    obtain ⟨⟨init, test, incr, hk⟩, hB, hrest⟩ := hU
    cases hfront
    have hsel : w.advanceSelector f s = { w with forBody := some c } := by
      simp only [BlockWalker.advanceSelector, hk]
    have hkind : BlockWalker.currentKind f { w with forBody := some c } =
        some (.forLoop init test incr c) := by
      simp only [BlockWalker.currentKind, hw, Option.map_some, hk]
    rw [hsel]
    refine ⟨⟨hb, hw, by simp [hw], ?_, ?_, hit, hrest⟩, ?_⟩
    · simp [BlockWalker.branches, hkind]
    · intro q hq
      rw [List.mem_singleton.mp hq]
      exact hB
    · simp [BlockWalker.branches, BlockWalker.release, hkind]

/-- **`AdvanceBlock`** comes to the front of what is ahead. -/
theorem advanceBlock_front {fr : Stms.Frame ℕ ℕ} (h : bw.ahead f = U.roots) (hU : Filled f U)
    (hfront : U.front bw.block = some fr) :
    ∃ bw', bw.advanceBlock f = (bw', true) ∧ AtFrame f bw' fr ∧
      (bw'.release f).2 = (bw'.branches f).head? := by
  have hroots : U.roots = fr.statement :: fr.rest.roots := by
    cases U <;> cases hfront <;> rfl
  obtain ⟨hat, hfirst⟩ := atFrame_selector hU hfront
    { bw with statement := some fr.statement, blockIt := fr.rest.roots } rfl rfl rfl
  refine ⟨_, ?_, hat, hfirst⟩
  unfold BlockWalker.advanceBlock
  rw [h, hroots]

theorem visits_front {fr : Stms.Frame ℕ ℕ} {b : ℕ} (h : U.front b = some fr) (d : ℕ) :
    U.visits b d = (fr.statement, b, d) :: visitsAhead fr.pending fr.rest b d := by
  cases U with
  | nil => cases h
  | leaf s rest =>
    cases h
    rfl
  | ifElse s t e T E rest =>
    cases h
    simp only [visitsAhead, List.flatMap_cons, List.flatMap_nil, List.append_nil, Stms.visits]
  | forLoop s c B rest =>
    cases h
    simp only [visitsAhead, List.flatMap_cons, List.flatMap_nil, List.append_nil, Stms.visits]

/-- `AdvanceBlock` at a statement: the first of those ahead, with all its
branches. -/
theorem advanceBlock_next (h : bw.ahead f = U.roots) (hU : Filled f U) (hne : U.roots ≠ []) :
    ∃ bw' s P U', bw.advanceBlock f = (bw', true) ∧ bw'.block = bw.block ∧
      bw'.statement = some s ∧ Stands f bw' P U' ∧
      (bw'.release f).2 = (bw'.branches f).head? ∧
      ∀ d, U.visits bw.block d = (s, bw.block, d) :: visitsAhead P U' bw.block d := by
  obtain ⟨fr, hfr⟩ : ∃ fr, U.front bw.block = some fr := by
    refine Option.ne_none_iff_exists'.mp fun hnone => hne ?_
    rw [Stms.front_eq_none.mp hnone]
    rfl
  obtain ⟨bw', hadv, hat, hfirst⟩ := advanceBlock_front h hU hfr
  exact ⟨bw', fr.statement, fr.pending, fr.rest, hadv, hat.block.trans (Stms.front_block hfr),
    hat.statement, hat.stands, hfirst, visits_front hfr⟩

/-- A released branch is entered; the walker on the stack has the others. -/
theorem Stands.release {q : ℕ × Stms ℕ ℕ} (h : Stands f bw (q :: P) U)
    (hfirst : (bw.release f).2 = (bw.branches f).head?) :
    ∃ bw', bw.release f = (bw', some q.1) ∧ bw'.block = bw.block ∧ Stands f bw' P U ∧
      (bw'.release f).2 = none := by
  obtain ⟨hst, hbr, hfill, hrest, hU⟩ := h
  have hfillP := fun p hp => hfill p (List.mem_cons_of_mem _ hp)
  rw [hbr, List.map_cons, List.head?_cons] at hfirst
  simp only [BlockWalker.release, BlockWalker.branches] at hbr hfirst ⊢
  cases hk : bw.currentKind f with
  | none => simp [hk] at hfirst
  | some k =>
    rw [hk] at hbr hfirst
    cases k with
    | forLoop init test incr c =>
      simp only at hfirst hbr
      rw [hfirst, List.map_cons, Option.toList_some, List.cons.injEq] at hbr
      have hk' : BlockWalker.currentKind f { bw with forBody := none } = some _ := hk
      refine ⟨_, Prod.ext rfl hfirst, rfl, ⟨hst, ?_, hfillP, hrest, hU⟩, ?_⟩
      · simp only [BlockWalker.branches, hk', ← hbr.2, Option.toList_none]
      · simp only [hk']
    | ifElse test t e =>
      simp only at hfirst hbr
      rw [hfirst, List.map_cons, Option.toList_some, List.singleton_append, List.cons.injEq] at hbr
      have hk' : BlockWalker.currentKind f { bw with ifBody := none } = some _ := hk
      refine ⟨_, Prod.ext rfl hfirst, rfl, ⟨hst, ?_, hfillP, hrest, hU⟩, ?_⟩
      · simp only [BlockWalker.branches, hk', hbr.2, Option.toList_none, List.nil_append]
      · simp only [hk']
    | _ => simp at hfirst

/-- A walker whose branches are all entered goes on in its block. -/
theorem Stands.release_nil (h : Stands f bw [] U) :
    (bw.release f).2 = none ∧ (bw.release f).1.block = bw.block ∧
      (bw.release f).1.ahead f = U.roots := by
  have hahead : ∀ a b, BlockWalker.ahead f { bw with forBody := a, ifBody := b } = U.roots :=
    fun a b => h.ahead
  have hbr := h.branches
  simp only [BlockWalker.release, BlockWalker.branches] at hbr ⊢
  cases hk : bw.currentKind f with
  | none => exact ⟨rfl, rfl, h.ahead⟩
  | some k =>
    rw [hk] at hbr
    cases k with
    | forLoop init test incr c => exact ⟨Option.toList_eq_nil_iff.mp hbr, rfl, hahead _ _⟩
    | ifElse test t e =>
      exact ⟨Option.toList_eq_nil_iff.mp (List.append_eq_nil_iff.mp hbr).1, rfl, hahead _ _⟩
    | _ => exact ⟨rfl, rfl, h.ahead⟩

theorem Stands.mustEnterBranch (h : Stands f bw P U) :
    bw.mustEnterBranch f = some (!P.isEmpty) := by
  obtain ⟨s, hs⟩ := Option.isSome_iff_exists.mp h.statement
  have hbr := h.branches
  have hempty : P.isEmpty = (bw.branches f).isEmpty := by rw [hbr, List.isEmpty_map]
  rw [hempty]
  simp only [BlockWalker.mustEnterBranch, BlockWalker.branches, BlockWalker.currentKind, hs,
    Option.map_some, Option.some.injEq]
  cases (f.stm s).kind with
  | forLoop init test incr c => cases bw.forBody <;> rfl
  | ifElse test t e => cases bw.ifBody <;> cases bw.elseBody <;> rfl
  | _ => rfl

/-- Back from its first branch, a walker with one left stands at an if. -/
theorem Stands.elseBody {q : ℕ × Stms ℕ ℕ} (h : Stands f bw (q :: P) U)
    (hback : (bw.release f).2 = none) :
    P = [] ∧ (∃ test t e, bw.currentKind f = some (.ifElse test t e)) ∧ bw.ifBody = none ∧
      bw.elseBody = some q.1 ∧ Stands f { bw with elseBody := none } [] U ∧
      (BlockWalker.release f { bw with elseBody := none }).2 = none := by
  obtain ⟨hst, hbr, -, hrest, hU⟩ := h
  simp only [BlockWalker.release, BlockWalker.branches] at hbr hback ⊢
  cases hk : bw.currentKind f with
  | none => simp [hk] at hbr
  | some k =>
    rw [hk] at hbr hback
    cases k with
    | forLoop init test incr c =>
      simp only at hback hbr
      rw [hback] at hbr
      simp at hbr
    | ifElse test t e =>
      simp only at hback hbr
      rw [hback, Option.toList_none, List.nil_append] at hbr
      have hk' : BlockWalker.currentKind f { bw with elseBody := none } = some _ := hk
      obtain ⟨helse, hP⟩ : bw.elseBody = some q.1 ∧ P = [] := by
        cases he : bw.elseBody with
        | none => simp [he] at hbr
        | some e' =>
          rw [he, Option.toList_some, List.map_cons, List.cons.injEq] at hbr
          exact ⟨congrArg some hbr.1, List.map_eq_nil_iff.mp hbr.2.symm⟩
      refine ⟨hP, ⟨test, t, e, rfl⟩, hback, helse, ⟨hst, ?_, fun q hq => absurd hq List.not_mem_nil,
        hrest, hU⟩, ?_⟩
      · unfold BlockWalker.branches
        rw [hk']
        simp only [hback, Option.toList_none, List.append_nil, List.map_nil]
      · rw [hk']
        exact hback
    | _ => simp at hbr

/-- **What an `Advance` from depth `d` comes to**, with the visits `todo`
ahead: the next of them, or false after the last. -/
def Advanced (f : Func M) (todo : List Visit) (d : ℕ) (r : Option (FunctionWalker × Bool)) :
    Prop :=
  ∃ w' : FunctionWalker, w'.blocksEntered ≤ 1 ∧ w'.depth + w'.blocksExited = d + w'.blocksEntered ∧
    match todo with
    | [] => r = some (w', false)
    | v :: todo' => r = some (w', true) ∧ At f w' v todo'

variable {ws : List BlockWalker} {todo : List Visit}

/-- The next statement of the block a walker has come to. -/
theorem advanced_next {w : FunctionWalker} {d : ℕ} (h : w.blockWalker.ahead f = U.roots)
    (hU : Filled f U) (hne : U.roots ≠ []) (hnested : Nested f w.nestedBlocks todo)
    (hent : w.blocksEntered ≤ 1) (hd : w.depth + w.blocksExited = d + w.blocksEntered) :
    (∃ bw, w.blockWalker.advanceBlock f = (bw, true) ∧
      Advanced f (U.visits w.blockWalker.block w.depth ++ todo) d
        (some ({ w with blockWalker := bw }, true))) := by
  obtain ⟨bw, s, P, U', hadv, hblock, hs, hstands, hfirst, hvisits⟩ := advanceBlock_next h hU hne
  refine ⟨bw, hadv, { w with blockWalker := bw }, hent, hd, ?_⟩
  rw [hvisits, List.cons_append]
  refine ⟨rfl, hs, hblock, rfl, P, U', todo, hstands, hfirst, hnested, ?_⟩
  rw [hblock]
  rfl

theorem enterElse_eq {w : FunctionWalker} {bw' : BlockWalker} {test : M → Bool} {t e b : ℕ}
    (hk : w.blockWalker.currentKind f = some (.ifElse test t e)) (hif : w.blockWalker.ifBody = none)
    (helse : w.blockWalker.elseBody = some b)
    (hadv : (w.enterBranch { w.blockWalker with elseBody := none } b).blockWalker.advanceBlock f =
      (bw', true)) :
    w.enterElse f = some ({ w.enterBranch { w.blockWalker with elseBody := none } b with
      blockWalker := bw' }, true) := by
  unfold FunctionWalker.enterElse
  rw [hk]
  simp only [helse]
  rw [hadv, if_neg (by simp [hif])]

/-- **The end of a block**: as many blocks are left as there is nothing more
in, and the else block of an if is entered. -/
theorem exitBlocks_spec (h : Nested f ws todo) (w : FunctionWalker) (hw : w.blocksEntered = 0) :
    Advanced f todo (ws.length + w.blocksExited) (w.exitBlocks f ws) := by
  induction ws generalizing w todo with
  | nil =>
    obtain rfl : todo = [] := h
    refine ⟨{ w with nestedBlocks := [] }, hw.le.trans (Nat.zero_le 1), ?_, rfl⟩
    simp [FunctionWalker.depth, hw]
  | cons bw ws ih =>
    obtain ⟨P, U, todo', hstands, hback, hnested, rfl⟩ := h
    unfold FunctionWalker.exitBlocks
    cases P with
    | nil =>
      have hvisits : visitsAhead [] U bw.block ws.length = U.visits bw.block ws.length := rfl
      simp only [hstands.mustEnterBranch, List.isEmpty_nil, Bool.not_true, hvisits]
      -- nothing more in this block either: it is left as well
      by_cases hU : U.roots = []
      · have hend := advanceBlock_end hstands.ahead hU
        rw [Stms.eq_nil_of_roots hU]
        obtain ⟨bw', hbw'⟩ : ∃ bw', bw.advanceBlock f = (bw', false) := ⟨_, Prod.ext rfl hend⟩
        rw [hbw']
        have hrec := ih hnested { w with
          blockWalker := bw', nestedBlocks := ws, blocksExited := w.blocksExited + 1 } hw
        rw [List.length_cons, Nat.add_right_comm]
        exact hrec
      · obtain ⟨bw', hadv, hto⟩ := advanced_next (w := { w with
          blockWalker := bw, nestedBlocks := ws, blocksExited := w.blocksExited + 1 })
          (d := (bw :: ws).length + w.blocksExited) hstands.ahead hstands.filledRest hU hnested
          (hw.le.trans (Nat.zero_le 1)) (by simp [FunctionWalker.depth, hw]; omega)
        rw [hadv]
        exact hto
    | cons q P =>
      obtain ⟨rfl, ⟨test, t, e, hk⟩, hif, helse, hstands', hback'⟩ := hstands.elseBody hback
      obtain ⟨hq, hqne, hqfill⟩ := hstands.filled q List.mem_cons_self
      simp only [hstands.mustEnterBranch, List.isEmpty_cons, Bool.not_false]
      obtain ⟨bw', hadv, hto⟩ := advanced_next (w := FunctionWalker.enterBranch { w with
          blockWalker := bw, nestedBlocks := ws, blocksExited := w.blocksExited + 1 }
          { bw with elseBody := none } q.1)
        (d := (bw :: ws).length + w.blocksExited) hq hqfill hqne
        ⟨[], U, todo', hstands', hback', hnested, rfl⟩ (by simp [FunctionWalker.enterBranch, hw])
        (by simp [FunctionWalker.enterBranch, FunctionWalker.depth, hw]; omega)
      rw [enterElse_eq hk hif helse hadv]
      have hvisits : visitsAhead [q] U bw.block ws.length ++ todo' =
          q.2.visits q.1 (ws.length + 1) ++ (visitsAhead [] U bw.block ws.length ++ todo') := by
        simp [visitsAhead]
      rw [hvisits]
      exact hto

/-- From a block with `U` ahead, where `Advance` has entered what it enters. -/
theorem advanced_block {w : FunctionWalker} (h : w.blockWalker.ahead f = U.roots)
    (hU : Filled f U) (hnested : Nested f w.nestedBlocks todo) (hent : w.blocksEntered = 0)
    (hexit : w.blocksExited = 0) :
    Advanced f (U.visits w.blockWalker.block w.depth ++ todo) w.depth
      (match w.blockWalker.advanceBlock f with
        | (bw, true) => some ({ w with blockWalker := bw }, true)
        | (bw, false) => FunctionWalker.exitBlocks f w.nestedBlocks
            { w with blockWalker := bw }) := by
  by_cases hne : U.roots = []
  · obtain ⟨bw', hbw'⟩ : ∃ bw', w.blockWalker.advanceBlock f = (bw', false) :=
      ⟨_, Prod.ext rfl (advanceBlock_end h hne)⟩
    rw [hbw', Stms.eq_nil_of_roots hne]
    have hleft := exitBlocks_spec hnested { w with blockWalker := bw' } hent
    have hd : w.nestedBlocks.length + w.blocksExited = w.depth := by rw [hexit]; rfl
    rw [← hd]
    exact hleft
  · obtain ⟨bw', hadv, hto⟩ := advanced_next h hU hne hnested (hent.le.trans (Nat.zero_le 1))
      (d := w.depth) (by rw [hent, hexit])
    rw [hadv]
    exact hto

/-- **One `Advance`**: the next visit, or false when there is none. -/
theorem advance_spec {w : FunctionWalker} {v : Visit} (h : At f w v todo) :
    Advanced f todo w.depth (w.advance f) := by
  obtain ⟨P, U, todo', hstands, hfirst, hnested, rfl⟩ := h.ahead
  unfold FunctionWalker.advance
  cases P with
  | nil =>
    obtain ⟨hnone, hblock, hahead⟩ := hstands.release_nil
    obtain ⟨bw, hbw⟩ : ∃ bw, w.blockWalker.release f = (bw, none) := ⟨_, Prod.ext rfl hnone⟩
    rw [hbw] at hblock hahead
    simp only [hbw]
    have hgo := advanced_block (w := { w with
      blockWalker := bw, blocksEntered := 0, blocksExited := 0 }) hahead hstands.filledRest hnested
      rfl rfl
    rw [show bw.block = w.blockWalker.block from hblock] at hgo
    exact hgo
  | cons q P =>
    obtain ⟨bw, hbw, hblock, hstands', hback⟩ := hstands.release hfirst
    obtain ⟨hq, hqne, hqfill⟩ := hstands.filled q List.mem_cons_self
    simp only [hbw]
    obtain ⟨bw', hadv, hto⟩ := advanced_next (w := FunctionWalker.enterBranch
        { w with blocksEntered := 0, blocksExited := 0 } bw q.1) (d := w.depth) hq hqfill hqne
      ⟨P, U, todo', hstands', hback, hnested, rfl⟩ le_rfl rfl
    rw [hadv, hblock] at *
    have hvisits : visitsAhead (q :: P) U w.blockWalker.block w.depth ++ todo' =
        q.2.visits q.1 (w.depth + 1) ++ (visitsAhead P U w.blockWalker.block w.depth ++ todo') := by
      simp only [visitsAhead, List.flatMap_cons, List.append_assoc]
    rw [hvisits]
    exact hto

/-- The first `Advance`, of a new walker. -/
theorem advance_create {T : Stms ℕ ℕ} {b : ℕ} (h : (f.block b).stms = T.roots)
    (hT : Filled f T) : Advanced f (T.visits b 0) 0 ((FunctionWalker.create b).advance f) := by
  rw [← List.append_nil (T.visits b 0)]
  exact advanced_block (w := FunctionWalker.create b) (U := T) h hT rfl rfl rfl

end Advance

/-! ## The whole walk -/

namespace FunctionWalker

/-- The statement a walker is at, its block and its depth. -/
def visit (w : FunctionWalker) : Option Visit :=
  w.blockWalker.statement.map fun s => (s, w.blockWalker.block, w.depth)

/-- **The counts add up**: after each of the calls, the depth is `d`, with
the branches entered so far and without those left. -/
def Balanced (d : ℕ) (ws : List FunctionWalker) : Prop :=
  ∀ l w, (l ++ [w]) <+: ws →
    w.depth + ((l ++ [w]).map blocksExited).sum = d + ((l ++ [w]).map blocksEntered).sum

theorem balanced_cons {d : ℕ} {w : FunctionWalker} {ws : List FunctionWalker}
    (hw : w.depth + w.blocksExited = d + w.blocksEntered) (h : Balanced w.depth ws) :
    Balanced d (w :: ws) := by
  intro l w' hpre
  cases l with
  | nil =>
    obtain rfl : w' = w := (List.cons_prefix_cons.mp hpre).1
    simpa using hw
  | cons w₁ l =>
    obtain ⟨rfl, hrest⟩ := List.cons_prefix_cons.mp hpre
    have := h l w' hrest
    simp only [List.cons_append, List.map_cons, List.sum_cons]
    omega

theorem walk_of_advanced {f : Func M} {w : FunctionWalker} {todo : List Visit} {d n : ℕ}
    (h : Advanced f todo d (w.advance f)) (hn : todo.length < n) :
    ∃ ws last, walk f n w = some (ws, last) ∧ ws.map visit = todo.map some ∧
      (∀ w' ∈ ws ++ [last], w'.blocksEntered ≤ 1) ∧ Balanced d (ws ++ [last]) := by
  induction todo generalizing w d n with
  | nil =>
    obtain ⟨w', hent, hd, hadv⟩ := h
    obtain ⟨n, rfl⟩ : ∃ m, n = m + 1 := ⟨n - 1, by omega⟩
    refine ⟨[], w', ?_, rfl, ?_, balanced_cons hd fun l w'' hpre => ?_⟩
    · unfold walk
      rw [hadv]
      rfl
    · intro w'' hw''
      rw [List.mem_singleton.mp hw'']
      exact hent
    · simp at hpre
  | cons v todo ih =>
    obtain ⟨w', hent, hd, hadv, hat⟩ := h
    obtain ⟨n, rfl⟩ : ∃ m, n = m + 1 := ⟨n - 1, by omega⟩
    obtain ⟨ws, last, hwalk, hvisits, hents, hbal⟩ :=
      ih (advance_spec hat) (n := n) (by simpa using hn)
    refine ⟨w' :: ws, last, ?_, ?_, ?_, balanced_cons hd hbal⟩
    · unfold walk
      rw [hadv]
      simp only [Option.bind_eq_bind, Option.bind_some, if_true, hwalk]
    · have hv : w'.visit = some v := by
        unfold visit
        rw [hat.statement, hat.block, hat.depth]
        rfl
      rw [List.map_cons, List.map_cons, hvisits, hv]
    · intro w'' hw''
      rcases List.mem_cons.mp hw'' with rfl | hw''
      · exact hent
      · exact hents w'' hw''

/-- **Every statement is visited exactly once**, in the order of the text,
in its own block and at the depth of that; then `Advance` returns false. Each
call enters at most one branch, and after each the depth is the branches
entered so far without those left. -/
theorem walk_visits (f : Func M) (b : ℕ) (T : Stms ℕ ℕ) (n : ℕ) (hb : (f.block b).stms = T.roots)
    (hT : Spells f T) (hne : ∀ c ∈ T.blocks, (f.block c).stms ≠ [])
    (hn : T.preorder.length < n) :
    ∃ ws last, walk f n (create b) = some (ws, last) ∧
      ws.map (fun w => w.blockWalker.statement) = T.preorder.map some ∧
      ws.map visit = (T.visits b 0).map some ∧
      (∀ w ∈ ws ++ [last], w.blocksEntered ≤ 1) ∧ Balanced 0 (ws ++ [last]) := by
  have hlen : (T.visits b 0).length = T.preorder.length := by
    rw [← T.map_fst_visits b 0, List.length_map]
  obtain ⟨ws, last, hwalk, hvisits, hents, hbal⟩ :=
    walk_of_advanced (advance_create hb (hT.filled hne)) (hlen ▸ hn)
  refine ⟨ws, last, hwalk, ?_, hvisits, hents, hbal⟩
  have hfst : ∀ w : FunctionWalker, w.blockWalker.statement = w.visit.map Prod.fst := by
    intro w
    unfold visit
    rw [Option.map_map]
    exact (congrFun Option.map_id _).symm
  calc ws.map (fun w => w.blockWalker.statement)
      = (ws.map visit).map (Option.map Prod.fst) := by
        rw [List.map_map]
        exact List.map_congr_left fun w _ => hfst w
    _ = T.preorder.map some := by
        rw [hvisits, ← T.map_fst_visits b 0, List.map_map, List.map_map]
        rfl

/-- A loop over an if, and a statement after it. -/
def nest : Func Unit where
  block
    | 0 => ⟨none, .body, false, [], [0, 4]⟩
    | 1 => ⟨some 0, .loop, false, [], [1]⟩
    | 2 => ⟨some 1, .branch, false, [], [2]⟩
    | _ => ⟨some 1, .branch, false, [], [3]⟩
  stm
    | 0 => ⟨0, .forLoop id (fun _ => false) id 1, []⟩
    | 1 => ⟨1, .ifElse (fun _ => true) 2 3, []⟩
    | 2 => ⟨2, .simple id, []⟩
    | 3 => ⟨3, .brk fun _ => true, []⟩
    | _ => ⟨0, .ret, []⟩

theorem walk_visits_nest : ∃ ws last, walk nest 6 (create 0) = some (ws, last) ∧
    ws.map (fun w => w.blockWalker.statement) = [some 0, some 1, some 2, some 3, some 4] ∧
    ws.map visit = [some (0, 0, 0), some (1, 1, 1), some (2, 2, 2), some (3, 3, 2),
      some (4, 0, 0)] ∧
    (∀ w ∈ ws ++ [last], w.blocksEntered ≤ 1) ∧ Balanced 0 (ws ++ [last]) :=
  walk_visits nest 0
    (.forLoop 0 1 (.ifElse 1 2 3 (.leaf 2 .nil) (.leaf 3 .nil) .nil) (.leaf 4 .nil)) 6 rfl
    ⟨⟨_, _, _, rfl⟩, rfl, ⟨.inl ⟨_, rfl⟩, rfl, rfl, ⟨rfl, trivial⟩, ⟨rfl, trivial⟩, trivial⟩,
      rfl, trivial⟩ (by decide) (by decide)

end FunctionWalker

end Walker

end CLSmith
