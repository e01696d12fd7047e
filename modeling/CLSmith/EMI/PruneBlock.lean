import CLSmith.Goto.Blocks
import CLSmith.Common.Tree
import Mathlib.Logic.Function.Basic
/-!
# Pruning an EMI section

`StatementEMI::PruneBlock`, `MergeBlock`, `RemoveBreakContinue` and
`Block::remove_stmt` on the tables of a function. The statements of a block
are a vector the code iterates over; where it is changed under the iteration,
which C++ does not define, the run fails.

`local_vars` go along; `func->blocks`, which only the goto generator reads,
stays. Of the CFG edges those of the gotos are kept: the others are erased
with their ends and nothing follows from that.
-/

namespace CLSmith

namespace EMI

open Generate Common

variable {M : Type}

/-- The probabilities of pruning, in percent; `p_lift` after its adjustment to what is
left by the one for compound statements. -/
structure Probs where
  leaf : ℕ
  compound : ℕ
  liftAdj : ℕ

/-- The blocks of a compound statement; an EMI section is a leaf. -/
def nested : Kind M → Option (List ℕ)
  | .ifElse _ t e => some [t, e]
  | .forLoop _ _ _ b => some [b]
  | _ => none

/-- `eContinue` or `eBreak`. -/
def isBreakContinue : Kind M → Bool
  | .brk _ => true
  | .cont _ => true
  | _ => false

/-- **A function under pruning**: `deleted_stms` of its blocks, and the CFG
edges of its gotos. -/
structure Pruning (M : Type) where
  func : Func M
  deleted : ℕ → List ℕ := fun _ => []
  edges : List (ℕ × ℕ) := []

namespace Pruning

variable (σ : Pruning M)

/-- `block->stms`. -/
def stms (b : ℕ) : List ℕ := (σ.func.block b).stms

/-- `st->eType`, with what the statement refers to. -/
def kind (s : ℕ) : Kind M := (σ.func.stm s).kind

/-- `st->parent`. -/
def parent (s : ℕ) : ℕ := (σ.func.stm s).parent

/-- The statements `contains_stmt` finds in `s`, itself among them. -/
def inside : ℕ → ℕ → List ℕ
  | 0, s => [s]
  | n + 1, s => s :: (σ.kind s).blocks.flatMap fun c => (σ.stms c).flatMap (inside n)

/-- Whether a `for` is around the block. -/
def inLoop (b : ℕ) : Bool := (σ.func.chain b).any fun c => decide ((σ.func.block c).role = .loop)

/-! ## Removing a statement -/

/-- The end of `remove_stmt`: the statement itself. -/
def eraseStmt (b s : ℕ) : Pruning M :=
  if s ∈ σ.stms b then
    { σ with
      func := { σ.func with
        block := Function.update σ.func.block b
          { σ.func.block b with stms := (σ.stms b).erase s } }
      deleted := Function.update σ.deleted b (σ.deleted b ++ [s]) }
  else σ

/-- The loop of `remove_stmt` over the edges that lead into `s`: each is
erased, and the goto it comes from removed by `rm`. -/
def removeJumps (rm : ℕ → ℕ → Pruning M → Pruning M) (n s : ℕ) : ℕ → Pruning M → Pruning M
  | 0, σ => σ
  | k + 1, σ =>
    match σ.edges.find? fun e => decide (e.2 ∈ σ.inside n s) with
    | none => σ
    | some e =>
      removeJumps rm n s k (rm (σ.parent e.1) e.1 { σ with edges := σ.edges.erase e })

/-- `remove_stmt`, as far as the fuel goes: every removal that follows from
one has an edge less. -/
def removeStmtFrom (n : ℕ) : ℕ → ℕ → ℕ → Pruning M → Pruning M
  | 0, _, _, σ => σ
  | k + 1, b, s, σ =>
    -- the gotos inside the statement go with it
    let σ₁ := { σ with edges := σ.edges.filter fun e => decide (e.1 ∉ σ.inside n s) }
    (removeJumps (removeStmtFrom n k) n s σ₁.edges.length σ₁).eraseStmt b s

/-- `block->remove_stmt(s)`. -/
def removeStmt (n b s : ℕ) : Pruning M := σ.removeStmtFrom n (σ.edges.length + 1) b s

/-- `remove_stmt` of one statement after the other. -/
def removeStmts (n b : ℕ) (del : List ℕ) : Pruning M :=
  del.foldl (fun σ s => σ.removeStmt n b s) σ

/-! ## Lifting -/

/-- `MergeBlock`: the statements of `merger` go in at `position`, which moves
to their end. -/
def mergeBlock (position former merger : ℕ) : Pruning M × ℕ :=
  let merged : Block := { σ.func.block former with
    localVars := (σ.func.block former).localVars ++ (σ.func.block merger).localVars
    stms := (σ.stms former).take position ++ σ.stms merger ++ (σ.stms former).drop position }
  let emptied : Block := { σ.func.block merger with localVars := [], stms := [] }
  let moved := σ.stms merger ++ σ.deleted merger
  ({ σ with
      func := { σ.func with
        block := Function.update (Function.update σ.func.block former merged) merger emptied
        stm := fun t =>
          if t ∈ moved then { σ.func.stm t with parent := former } else σ.func.stm t }
      deleted := Function.update
        (Function.update σ.deleted former (σ.deleted former ++ σ.deleted merger)) merger [] },
    position + (σ.stms merger).length)

/-- The blocks are as the iteration over `live` found them. -/
def unchanged (b : ℕ) (live : List ℕ) : Option Unit := if σ.stms b = live then some () else none

/-- The loop of `RemoveBreakContinue`. -/
def clearBranches (clear : ℕ → Pruning M → Option (Pruning M)) (b : ℕ) (live : List ℕ) :
    List ℕ → Pruning M → Option (Pruning M)
  | [], σ => some σ
  | s :: rest, σ =>
    match σ.kind s with
    | .ifElse _ t e => do
      let σ ← clear t σ
      let σ ← clear e σ
      σ.unchanged b live
      clearBranches clear b live rest σ
    | _ => clearBranches clear b live rest σ

/-- `RemoveBreakContinue`. -/
def removeBreakContinue : ℕ → ℕ → Pruning M → Option (Pruning M)
  | 0, _, _ => none
  | n + 1, b, σ => do
    let del := (σ.stms b).filter fun s => isBreakContinue (σ.kind s)
    let σ ← clearBranches (removeBreakContinue n) b (σ.stms b) (σ.stms b) σ
    some (σ.removeStmts (n + 1) b del)

/-- `position` goes on to the statement `s`; past the end it asserts. -/
def advance (l : List ℕ) (s position : ℕ) : Option ℕ :=
  if s ∈ l.drop position then some (position + (l.drop position).idxOf s) else none

/-- The loop over `lift_stms`. -/
def liftStms (n b : ℕ) (inLoop : Bool) : List ℕ → ℕ → Pruning M → Option (Pruning M)
  | [], _, σ => some σ
  | s :: rest, position, σ => do
    let position ← advance (σ.stms b) s position
    match σ.kind s with
    | .ifElse _ t e =>
      let (σ, position) := σ.mergeBlock position b t
      let (σ, position) := σ.mergeBlock position b e
      liftStms n b inLoop rest position σ
    | .forLoop _ _ _ c => do
      let live := σ.stms b
      let σ ← (if inLoop then some σ else σ.removeBreakContinue n c)
      σ.unchanged b live
      let (σ, position) := σ.mergeBlock position b c
      liftStms n b inLoop rest position σ
    | _ => none

/-! ## Pruning -/

/-- **The loop of `PruneBlock`** over the statements: what is to be deleted
and what to be lifted. -/
def visitStms (p : Probs) (prune : ℕ → Pruning M → Gen (Pruning M)) (b : ℕ) (live : List ℕ) :
    List ℕ → Pruning M → Gen (Pruning M × List ℕ × List ℕ)
  | [], σ => pure (σ, [], [])
  | s :: rest, σ =>
    match nested (σ.kind s) with
    | none => do
      let doLeaf ← rndFlipcoin p.leaf
      let (σ, del, lift) ← visitStms p prune b live rest σ
      pure (σ, if doLeaf then s :: del else del, lift)
    | some blks => do
      let σ ← blks.foldlM (fun σ c => prune c σ) σ
      Gen.ofOption (σ.unchanged b live)
      -- both coins are drawn, whatever the first says
      let doCompound ← rndFlipcoin p.compound
      let doLift ← rndFlipcoin p.liftAdj
      let (σ, del, lift) ← visitStms p prune b live rest σ
      pure (σ, if doCompound then s :: del else del,
        if !doCompound && doLift then s :: lift else lift)

/-- The part of `PruneBlock` after its loop. -/
def settle (n b : ℕ) (del lift : List ℕ) : Option (Pruning M) := do
  let σ := σ.removeStmts n b del
  let σ ← liftStms n b (σ.inLoop b) lift 0 σ
  some (σ.removeStmts n b lift)

/-- **`PruneBlock`**, with fuel for the nesting of the blocks. The coins are drawn
statement by statement on the way down; what they say is done when the loop over the
block is through. -/
def pruneBlock (p : Probs) : ℕ → ℕ → Pruning M → Gen (Pruning M)
  | 0, _, _ => fun _ => none
  | n + 1, b, σ => do
    let (σ, del, lift) ← visitStms p (pruneBlock p n) b (σ.stms b) (σ.stms b) σ
    Gen.ofOption (σ.settle (n + 1) b del lift)

/-- **`PruneEMISections`**: the true block of each section, in the function
it is in. -/
def pruneEmiSections (p : Probs) (n : ℕ) (sections : List (ℕ × ℕ)) (σ : ℕ → Pruning M) :
    Gen (ℕ → Pruning M) :=
  sections.foldlM (fun σ e => do
    let f ← pruneBlock p n e.2 (σ e.1)
    pure (Function.update σ e.1 f)) σ

end Pruning

end EMI

end CLSmith
