import CLSmith.Goto.Blocks
import CLSmith.Common.Events
import Mathlib.Logic.Function.Basic
/-!
# Generation, event by event

`Block::make_random`, `Statement::make_random`, `StatementEMI::make_random`
and `StatementGoto::make_random` as the events they leave behind in a
function: a block opened or closed, a statement appended, a jump inserted, a
statement removed. A program is its functions, made in any order, with the
count of the `emi_input` items handed out.
-/

namespace CLSmith

namespace Generate

variable {M : Type}

/-- **An event.** The facts the generator has computed at a jump are part of
it: the variable found for the condition, and whether the destination could
be visited again. -/
inductive Event (M : Type)
  | openBlock (role : Role) (inArrayLoop : Bool)
  | openEmi (inArrayLoop : Bool)
  | closeBlock
  | newLocal (b v : ℕ)
  | append (kind : Kind M) (calls : List ℕ)
  | goto (draws : Tape) (condVar : Option (M → Bool)) (ok : Bool)
  | removeStmt (s : ℕ)

namespace Func

variable (f : Func M)

/-- A new block in the current one becomes the current one. -/
def openBlock (role : Role) (inArrayLoop : Bool) : Func M :=
  { f with
    block := Function.update f.block f.nextBlock ⟨f.currentBlock, role, inArrayLoop, [], []⟩
    blocks := f.blocks ++ [f.nextBlock]
    stack := f.nextBlock :: f.stack
    nextBlock := f.nextBlock + 1 }

/-- The current block is through. -/
def closeBlock : Func M := { f with stack := f.stack.tail, made := f.stack.head?.toList ++ f.made }

def setStms (b : ℕ) (stms : List ℕ) : Func M :=
  { f with block := Function.update f.block b { f.block b with stms := stms } }

def newLocal (b v : ℕ) : Func M :=
  { f with
    block := Function.update f.block b
      { f.block b with localVars := (f.block b).localVars ++ [v] } }

/-- A new statement of the block `b`, which `stms` puts in its place. -/
def newStm (b : ℕ) (kind : Kind M) (calls : List ℕ) (stms : List ℕ) : Func M :=
  { f.setStms b stms with
    stm := Function.update f.stm f.nextStm ⟨b, kind, calls⟩
    made := f.made.filter fun c => decide (c ∉ kind.blocks)
    nextStm := f.nextStm + 1 }

/-- The block `c` waits for a statement of `b` that makes `role` of it. -/
def Waits (b c : ℕ) (role : Role) : Prop :=
  c ∈ f.made ∧ (f.block c).parent = some b ∧ (f.block c).role = role

instance (b c : ℕ) (role : Role) : Decidable (f.Waits b c role) := by
  unfold Waits
  infer_instance

/-- What `make_random` can make a statement of in the block `b`, once the
blocks for it are there. A goto is not appended so. -/
def Fits (b : ℕ) : Kind M → Prop
  | .ifElse _ t e => f.Waits b t .branch ∧ f.Waits b e .branch
  | .forLoop _ _ _ c => f.Waits b c .loop
  | .emi i j t e => f.Waits b t (.emi i j) ∧ f.Waits b e .branch
  | .goto _ _ => False
  | _ => True

instance (b : ℕ) (k : Kind M) : Decidable (f.Fits b k) := by
  unfold Fits
  split <;> infer_instance

/-- `new` right after `s`. -/
def insertAfter (s new : ℕ) : List ℕ → List ℕ
  | [] => []
  | t :: ts => if t = s then t :: new :: ts else t :: insertAfter s new ts

/-- The block a jump leaves from. -/
def Jump.src (j : Jump) (f : Func M) (currBlk : ℕ) : ℕ :=
  if j.backEdge then currBlk else (f.stm j.otherStm).parent

/-- The block it leads to. -/
def Jump.dst (j : Jump) (f : Func M) (currBlk : ℕ) : ℕ :=
  if j.backEdge then (f.stm j.otherStm).parent else currBlk

/-- `StatementGoto::make_random` after the choice of the jump: a backward
goto is appended, a forward one stands after the statement chosen. -/
def makeGoto (currBlk : ℕ) (j : Jump) (test : M → Bool) (ok : Bool) : Option (Func M) :=
  if j.backEdge then
    some (f.newStm currBlk (.goto test j.otherStm) [] ((f.block currBlk).stms ++ [f.nextStm]))
  else
    match (f.block currBlk).stms.getLast? with
    | none => none
    | some stm =>
      if ok then
        let otherBlk := (f.stm j.otherStm).parent
        some (f.newStm otherBlk (.goto test stm) []
          (insertAfter j.otherStm f.nextStm (f.block otherBlk).stms))
      else some f

/-- The jump the draws choose, if any. -/
def jump (currBlk : ℕ) (draws : Tape) : Option Jump :=
  (f.chooseJump currBlk draws).bind Prod.fst

/-- **An EMI section stands around `dst` and not around `src`**, so that control would
come into the section from outside. -/
def Crosses (src dst : ℕ) : Prop :=
  ∃ e ∈ f.chain dst, (f.block e).role.isEmi = true ∧ e ∉ f.chain src

/-- **The block `dst` is shut to jumps from `src`**: it is in an array loop,
or the way into it passes the declaration of a local variable. -/
def Shut (src dst : ℕ) : Prop :=
  (f.block dst).inArrayLoop = true ∨ f.hasInitSkippedVars src dst = true

/-- **The EMI sections are guarded against a goto made in `b`.** Of each block
of the function that has a statement a jump may be tied to: where a section is
around it and not around `b` it is shut to `b`, unless the last statement of
`b` returns and nothing jumps back from there; where a section is around `b`
and not around it, `b` is shut to it, unless `b` is empty and nothing jumps
forward to it. -/
def Guarded (b : ℕ) : Prop :=
  ∀ c ∈ f.blocks, f.okStms b c ≠ [] →
    ((f.getLastStm b).any (f.mustReturn f.nextStm) = false → f.Crosses b c → f.Shut b c) ∧
      ((f.block b).stms ≠ [] → f.Crosses c b → f.Shut c b)

instance (src dst : ℕ) : Decidable (f.Crosses src dst) := by
  unfold Crosses
  infer_instance

instance (src dst : ℕ) : Decidable (f.Shut src dst) := by
  unfold Shut
  infer_instance

instance (b : ℕ) : Decidable (f.Guarded b) := by
  unfold Guarded
  infer_instance

/-- `remove_stmt`, for one statement: the blocks inside it go with it. The
gotos that lead into it are removed before it, by events of their own. -/
def removeStmt (s : ℕ) : Func M :=
  { f.setStms (f.stm s).parent ((f.block (f.stm s).parent).stms.erase s) with
    blocks := f.blocks.filter fun b => decide (∀ c ∈ (f.stm s).kind.blocks, c ∉ f.chain b) }

end Func

/-- **A program under construction**: its functions, and how many items of the EMI
input the sections have taken. -/
structure State (M : Type) where
  itemCount : ℕ := 0
  func : ℕ → Func M := fun _ => {}

namespace State

variable (cg : CGOptions) (g : State M)

def setFunc (i : ℕ) (f : Func M) : State M := { g with func := Function.update g.func i f }

/-- **One event** in the function `i`. It may be of any function, as one is made in
the middle of another. -/
def step (i : ℕ) : Event M → Option (State M)
  | .openBlock role inArrayLoop =>
    if role.isEmi then none
    else some (g.setFunc i ((g.func i).openBlock role inArrayLoop))
  | .openEmi inArrayLoop =>
    -- `item_count` is handed out twice, before the true block is made
    if (g.func i).stack ≠ [] ∧ g.itemCount < 1024 then
      some (State.setFunc { g with itemCount := g.itemCount + 2 } i
        ((g.func i).openBlock (.emi g.itemCount (g.itemCount + 1)) inArrayLoop))
    else none
  | .closeBlock => some (g.setFunc i (g.func i).closeBlock)
  | .newLocal b v =>
    if b ∈ (g.func i).stack then some (g.setFunc i ((g.func i).newLocal b v)) else none
  | .append kind calls =>
    match (g.func i).currentBlock with
    | none => none
    | some b =>
      if (g.func i).Fits b kind then
        some (g.setFunc i ((g.func i).newStm b kind calls
          (((g.func i).block b).stms ++ [(g.func i).nextStm])))
      else none
  | .goto draws condVar ok =>
    if cg.gotos then
      match (g.func i).currentBlock with
      | none => none
      | some b =>
        match (g.func i).jump b draws, condVar with
        | some j, some test => ((g.func i).makeGoto b j test ok).map (g.setFunc i)
        | _, _ => some g
    else none
  | .removeStmt s => some (g.setFunc i ((g.func i).removeStmt s))

/-- **The state a goto is made in has its EMI sections guarded**; the other
events are free. -/
def Guards (i : ℕ) : Event M → Prop
  | .goto _ _ _ => ∀ b ∈ (g.func i).currentBlock, (g.func i).Guarded b
  | _ => True

instance (i : ℕ) (e : Event M) : Decidable (g.Guards i e) := by
  cases e <;> unfold Guards <;> infer_instance

variable (M)

/-- The generation of programs: events of any functions, in any order. -/
def system : Common.System (State M) :=
  Common.eventSystem (fun (g : State M) (e : ℕ × Event M) => g.step cg e.1 e.2) {}

/-- An event, in a state that guards against it. -/
def guardedStep (g : State M) (e : ℕ × Event M) : Option (State M) :=
  if g.Guards e.1 e.2 then g.step cg e.1 e.2 else none

/-- **Generation that makes a goto only where the EMI sections are guarded
against it.** -/
def guardedSystem : Common.System (State M) :=
  Common.eventSystem (guardedStep M cg) {}

end State

end Generate

end CLSmith
