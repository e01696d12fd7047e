import CLSmith.Random
import CLSmith.Options
import Mathlib.Data.List.Basic
/-!
# Functions under construction

A function as the generator holds it: its blocks and statements in tables,
each with its parent, `func->blocks` and `func->stack`. This module has the
queries the goto generator makes of them; what a statement computes is kept
as a function of the memory `M`.
-/

namespace CLSmith

namespace Generate

/-- What a block is made for; the true block of an EMI section with the
items of `emi_input` its test compares. -/
inductive Role
  | body | loop | branch
  | emi (item1 item2 : ℕ)
deriving DecidableEq

/-- `Role` of the true block of a `StatementEMI`. -/
def Role.isEmi : Role → Bool
  | emi _ _ => true
  | _ => false

structure Block where
  parent : Option ℕ
  role : Role
  inArrayLoop : Bool
  localVars : List ℕ
  stms : List ℕ

variable {M : Type}

/-- The kinds of statements. A break, continue or goto has a test; `simple`
is every statement control runs through. -/
inductive Kind (M : Type)
  | simple (run : M → M)
  | ret
  | brk (test : M → Bool)
  | cont (test : M → Bool)
  | goto (test : M → Bool) (dest : ℕ)
  | ifElse (test : M → Bool) (ifTrue ifFalse : ℕ)
  | forLoop (init : M → M) (test : M → Bool) (incr : M → M) (body : ℕ)
  | emi (item1 item2 : ℕ) (ifTrue ifFalse : ℕ)

/-- `get_blocks`. -/
def Kind.blocks : Kind M → List ℕ
  | ifElse _ t e => [t, e]
  | forLoop _ _ _ b => [b]
  | emi _ _ t e => [t, e]
  | _ => []

/-- A statement, with the functions its expressions call. -/
structure Stm (M : Type) where
  parent : ℕ
  kind : Kind M
  calls : List ℕ

/-- **A function.** `made` are the blocks that are through and wait for the
statement they are made for. -/
structure Func (M : Type) where
  block : ℕ → Block := fun _ => ⟨none, .branch, false, [], []⟩
  stm : ℕ → Stm M := fun _ => ⟨0, .ret, []⟩
  blocks : List ℕ := []
  stack : List ℕ := []
  made : List ℕ := []
  nextBlock : ℕ := 0
  nextStm : ℕ := 0

namespace Func

variable (f : Func M)

/-- `get_current_block`. -/
def currentBlock : Option ℕ := f.stack.head?

/-! ## Parents -/

/-- A block and its parents, as far as the fuel goes. -/
def chainFrom : ℕ → ℕ → List ℕ
  | 0, _ => []
  | n + 1, b =>
    b :: match (f.block b).parent with
      | some p => chainFrom n p
      | none => []

/-- A block and the blocks it stands in; a parent is the older block. -/
def chain (b : ℕ) : List ℕ := f.chainFrom (b + 1) b

/-- `Variable::is_visible_local`. -/
def isVisibleLocal (v b : ℕ) : Bool := (f.chain b).any fun c => decide (v ∈ (f.block c).localVars)

/-! ## Last statements -/

def isReturn (s : ℕ) : Bool :=
  match (f.stm s).kind with
  | .ret => true
  | _ => false

/-- `get_last_stm`: a return ends the block. -/
def getLastStm (b : ℕ) : Option ℕ :=
  match (f.block b).stms.find? f.isReturn with
  | some s => some s
  | none => (f.block b).stms.getLast?

/-- `must_return`. An if asks its branches, at which no break or continue
is recorded: those are at the bodies of loops. -/
def mustReturn : ℕ → ℕ → Bool
  | 0, _ => false
  | n + 1, s =>
    match (f.stm s).kind with
    | .ret => true
    | .ifElse _ t e => ((f.getLastStm t).any (mustReturn n)) &&
        ((f.getLastStm e).any (mustReturn n))
    | _ => false

/-! ## Jumps -/

/-- `has_init_skipped_vars`: a jump from `srcBlk` to a statement of `b`
skips the initialisation of a local variable. -/
def hasInitSkippedVars (srcBlk b : ℕ) : Bool :=
  (((f.chain b).takeWhile (· ≠ srcBlk)).flatMap fun c => (f.block c).localVars).any fun v =>
    decide (srcBlk ∈ f.chain b) || !f.isVisibleLocal v srcBlk

/-- What `find_good_jump_block` asks of the block `b` it has drawn. -/
def goodJumpBlock (blk b : ℕ) (asDest : Bool) : Bool :=
  if (f.block b).inArrayLoop && asDest then false
  else
    match (f.block b).stms with
    | [] => false
    | s :: rest =>
      if rest.isEmpty && f.isReturn s && !asDest then false
      else if b = blk then true
      else if asDest then !f.hasInitSkippedVars blk (f.stm s).parent
      else
        match (f.block blk).stms with
        | [] => true
        | s' :: _ => !f.hasInitSkippedVars b (f.stm s').parent

/-- `find_good_jump_block`, with as much fuel as there are blocks. -/
def findGoodJumpBlock (blk : ℕ) (asDest : Bool) : ℕ → List ℕ → Gen (Option ℕ)
  | 0, _ => pure none
  | n + 1, blocks =>
    if (f.block blk).inArrayLoop && !asDest then pure none
    else if (f.block blk).stms.isEmpty && !asDest then pure none
    else if (f.getLastStm blk).any (f.mustReturn f.nextStm) && asDest then pure none
    else do
      let index ← rndUpto blocks.length fun _ => false
      let b ← Gen.ofOption blocks[index]?
      if f.goodJumpBlock blk b asDest then pure (some b)
      else findGoodJumpBlock blk asDest n (blocks.eraseIdx index)

/-- A jump drawn: between the current block and a statement of `block`. -/
structure Jump where
  backEdge : Bool
  block : ℕ
  otherStm : ℕ

/-- A block to jump back to, or else one to jump forward from. -/
def chooseBlock (currBlk : ℕ) (selectBackEdge : Bool) : Gen (Bool × Option ℕ) := do
  let back ← (if selectBackEdge then f.findGoodJumpBlock currBlk true f.blocks.length f.blocks
    else pure none)
  match back with
  | some b => pure (true, some b)
  | none => do
    let okBlk ← f.findGoodJumpBlock currBlk false f.blocks.length f.blocks
    pure (false, okBlk)

/-- `ok_stms` of `make_random`: the statements of the block drawn that are
not the one just made and need not return. -/
def okStms (currBlk b : ℕ) : List ℕ :=
  (f.block b).stms.filter fun s =>
    decide ((f.block currBlk).stms.getLast? ≠ some s) && !f.mustReturn f.nextStm s

/-- `StatementGoto::make_random`, as far as the choice of its two ends. -/
def chooseJump (currBlk : ℕ) : Gen (Option Jump) := do
  let selectBackEdge ← rndFlipcoin 40
  let (backEdge, okBlk) ← f.chooseBlock currBlk selectBackEdge
  match okBlk with
  | none => pure none
  | some b =>
    if (f.okStms currBlk b).isEmpty then pure none
    else do
      let stmId ← rndUpto (f.okStms currBlk b).length fun _ => false
      let otherStm ← Gen.ofOption (f.okStms currBlk b)[stmId]?
      pure (some ⟨backEdge, b, otherStm⟩)

end Func

end Generate

end CLSmith
