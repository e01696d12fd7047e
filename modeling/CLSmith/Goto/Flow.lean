import CLSmith.Goto.Deletion
/-!
# Generation with control flow edges

The generation of one function together with what its fact manager keeps of the
control flow: every statement that leaves its block, every goto and every removal
with its edges. A local variable goes to the block `expand_block_for_goto` finds.
-/

namespace CLSmith

namespace Generate

variable {M : Type}

/-- **An event** in a function with its control flow. What the generator finds out
about facts is part of it, as in `Event`. The empty blocks of `make_dummy_block` are
opened and closed like others where they end up in a statement; those that
`ExpressionAtomic::make_random` leaves on the list of blocks in no statement have no
event, so the runs here are those without atomic sections. -/
inductive FlowEvent (M : Type)
  | openBlock (role : Role) (inArrayLoop : Bool)
  | closeBlock
  | newLocal (b v : ℕ)
  | append (kind : Kind M) (calls : List ℕ)
  | goto (draws : Tape) (condVar : Option (M → Bool)) (ok : Bool)
  | selfEdge
  | removeStmt (b s : ℕ)

namespace Func

variable (f : Func M)

/-- A block can be opened: the body first, and every other block in an open one.
Inside a loop the context has induction variables, and so has any in it. -/
def MayOpen (role : Role) (inArrayLoop : Bool) : Prop :=
  (f.stack = [] ↔ role = .body) ∧ (f.stack = [] → f.nextBlock = 0) ∧
    (role = .loop ∨ (f.currentBlock.any fun b => (f.block b).inArrayLoop) = true →
      inArrayLoop = true)

instance (role : Role) (inArrayLoop : Bool) : Decidable (f.MayOpen role inArrayLoop) := by
  unfold MayOpen
  infer_instance

/-- The current block can be closed: its blocks are in statements. -/
def MayClose : Prop := f.stack ≠ [] ∧ ∀ c ∈ f.made, (f.block c).parent ≠ f.currentBlock

instance : Decidable f.MayClose := by
  unfold MayClose
  infer_instance

/-- A variable no block has. -/
def NewName (v : ℕ) : Prop := ∀ c < f.nextBlock, v ∉ (f.block c).localVars

instance (v : ℕ) : Decidable (f.NewName v) := by
  unfold NewName
  infer_instance

end Func

namespace FlowGraph

variable (σ : FlowGraph M)

/-! ## A block for a local variable -/

/-- `contains_stmt` of a block. -/
def inBlock (b : ℕ) : Node → Bool
  | .stm s => decide (b ∈ σ.func.chain (σ.parent s))
  | .block c => decide (b ∈ σ.func.chain c)

/-- The source of the edge is an `eGoto`. -/
def fromGoto (e : CFGEdge) : Bool :=
  match e.src with
  | .stm s =>
    match σ.kind s with
    | .goto _ _ => true
    | _ => false
  | .block _ => false

/-- The edge is of a goto into the block from outside. -/
def jumpsInto (b : ℕ) (e : CFGEdge) : Bool :=
  σ.fromGoto e && σ.inBlock b e.dest && !σ.inBlock b e.src

/-- The loop of `expand_block_for_goto`, as far as the fuel goes. It fails where the
source has no block around it that is around the block. -/
def expandFrom : ℕ → ℕ → Option ℕ
  | 0, _ => none
  | n + 1, b =>
    match σ.cfgEdges.find? (σ.jumpsInto b) with
    | none => some b
    | some e => ((σ.func.chain b).find? fun c => σ.inBlock c e.src).bind (expandFrom n)

/-- **`expand_block_for_goto`**: the block climbs to older ones. It ends at the
innermost block that has all gotos into the one it started from inside it. -/
def expandBlockForGoto (b : ℕ) : Option ℕ := σ.expandFrom (b + 1) b

/-! ## Events -/

/-- `GenerateNewParentLocal` and `create_random_array`: a variable that is declared
in an open block, or around it. -/
def newLocal (b v : ℕ) : Option (FlowGraph M) :=
  (σ.expandBlockForGoto b).map fun blk => { σ with func := σ.func.newLocal blk v }

/-- The edges that are created with a statement: a continue leads back to the head of
its loop, and the breaks of a loop lead behind it. -/
def edgesOf (s : ℕ) : Kind M → List CFGEdge
  | .cont _ =>
    match σ.func.currentBlock.bind fun b => (σ.func.chain b).find? σ.looping with
    | some l => [⟨.stm s, .block l, false, true⟩]
    | none => []
  | .forLoop _ _ _ body => (σ.breakStms body).map fun x => ⟨.stm x, .stm s, true, false⟩
  | _ => []

/-- `break_stms` after a statement. -/
def breaksWith (s : ℕ) : Kind M → ℕ → List ℕ
  | .brk _ =>
    match σ.func.currentBlock.bind fun b => (σ.func.chain b).find? σ.looping with
    | some l => Function.update σ.breakStms l (σ.breakStms l ++ [s])
    | none => σ.breakStms
  | _ => σ.breakStms

/-- A statement at the end of the block `b`, which is the current one. -/
def append (b : ℕ) (kind : Kind M) (calls : List ℕ) : FlowGraph M :=
  { σ with
    func := σ.func.newStm b kind calls (σ.stms b ++ [σ.func.nextStm])
    cfgEdges := σ.cfgEdges ++ σ.edgesOf σ.func.nextStm kind
    breakStms := σ.breaksWith σ.func.nextStm kind }

/-- The edge that is created with a goto. -/
def gotoEdges (currBlk : ℕ) (j : Func.Jump) (ok : Bool) : List CFGEdge :=
  if j.backEdge then [⟨.stm σ.func.nextStm, .stm j.otherStm, false, true⟩]
  else
    match (σ.stms currBlk).getLast? with
    | some stm => if ok then [⟨.stm σ.func.nextStm, .stm stm, false, false⟩] else []
    | none => []

/-- `StatementGoto::make_random` after the choice of the jump. -/
def makeGoto (currBlk : ℕ) (j : Func.Jump) (test : M → Bool) (ok : Bool) : Option (FlowGraph M) :=
  (σ.func.makeGoto currBlk j test ok).map fun f =>
    { σ with func := f, cfgEdges := σ.cfgEdges ++ σ.gotoEdges currBlk j ok }

/-- **One event.** The draws of the generator are data of it; an event the generator
cannot come to in the state it is in has no successor. -/
def step (cg : CGOptions) : FlowEvent M → Option (FlowGraph M)
  | .openBlock role inArrayLoop =>
    if σ.func.MayOpen role inArrayLoop then
      some { σ with func := σ.func.openBlock role inArrayLoop }
    else none
  | .closeBlock => if σ.func.MayClose then some { σ with func := σ.func.closeBlock } else none
  | .newLocal b v => if b ∈ σ.func.stack ∧ σ.func.NewName v then σ.newLocal b v else none
  | .append kind calls =>
    match σ.func.currentBlock with
    | none => none
    | some b => if σ.func.Fits b kind then some (σ.append b kind calls) else none
  | .goto draws condVar ok =>
    if cg.gotos then
      match σ.func.currentBlock with
      | none => none
      | some b =>
        match σ.func.jump b draws, condVar with
        | some j, some test => σ.makeGoto b j test ok
        | _, _ => some σ
    else none
  | .selfEdge =>
    match σ.func.currentBlock with
    | none => none
    | some b => if σ.looping b then some (σ.selfEdge b) else none
  | .removeStmt b s => if b ∈ σ.func.stack ∧ s ∈ σ.stms b then σ.removeStmt b s else none

/-- **The generation of a function**: any events, from a function without blocks on.
The other functions of the program have systems of their own. -/
def system (M : Type) (cg : CGOptions) : Common.System (FlowGraph M) :=
  Common.eventSystem (fun (σ : FlowGraph M) (e : FlowEvent M) => σ.step cg e) { func := {} }

/-- What one event can do, with what it asks of the state; every invariant goes
through these cases. -/
inductive Moves : FlowGraph M → Prop
  | openBlock {role : Role} {inArrayLoop : Bool} (h : σ.func.MayOpen role inArrayLoop) :
    Moves { σ with func := σ.func.openBlock role inArrayLoop }
  | closeBlock (h : σ.func.MayClose) : Moves { σ with func := σ.func.closeBlock }
  | newLocal {b v blk : ℕ} (hb : b ∈ σ.func.stack) (hv : σ.func.NewName v)
      (hblk : σ.expandBlockForGoto b = some blk) :
    Moves { σ with func := σ.func.newLocal blk v }
  | append {b : ℕ} {kind : Kind M} (calls : List ℕ) (hb : σ.func.currentBlock = some b)
      (h : σ.func.Fits b kind) : Moves (σ.append b kind calls)
  | goto {b : ℕ} {draws : Tape} {j : Func.Jump} {test : M → Bool} {ok : Bool} {σ' : FlowGraph M}
      (hb : σ.func.currentBlock = some b) (hj : σ.func.jump b draws = some j)
      (h : σ.makeGoto b j test ok = some σ') : Moves σ'
  | idle : Moves σ
  | selfEdge {b : ℕ} (hb : b ∈ σ.func.stack) : Moves (σ.selfEdge b)
  | removeStmt {b s : ℕ} {σ' : FlowGraph M} (hb : b ∈ σ.func.stack) (hs : s ∈ σ.stms b)
      (h : σ.removeStmt b s = some σ') : Moves σ'

variable {σ}

theorem moves_of_step {cg : CGOptions} {e : FlowEvent M} {σ' : FlowGraph M}
    (h : σ.step cg e = some σ') : σ.Moves σ' := by
  cases e with
  | openBlock role inArrayLoop =>
    obtain ⟨ho, hσ⟩ := Option.ite_none_right_eq_some.mp h
    cases hσ
    exact .openBlock ho
  | closeBlock =>
    obtain ⟨hc, hσ⟩ := Option.ite_none_right_eq_some.mp h
    cases hσ
    exact .closeBlock hc
  | newLocal b v =>
    obtain ⟨⟨hb, hv⟩, hσ⟩ := Option.ite_none_right_eq_some.mp h
    obtain ⟨blk, hblk, rfl⟩ := Option.map_eq_some_iff.mp hσ
    exact .newLocal hb hv hblk
  | append kind calls =>
    simp only [step] at h
    split at h
    · cases h
    · next b hb =>
      obtain ⟨hfits, hσ⟩ := Option.ite_none_right_eq_some.mp h
      cases hσ
      exact .append calls hb hfits
  | goto draws condVar ok =>
    obtain ⟨-, hσ⟩ := Option.ite_none_right_eq_some.mp h
    split at hσ
    · cases hσ
    · next b hb =>
      split at hσ
      · next j test hj => exact .goto hb hj hσ
      · cases hσ
        -- no jump was found, or no variable to test
        exact .idle
  | selfEdge =>
    simp only [step] at h
    split at h
    · cases h
    · next b hb =>
      obtain ⟨-, hσ⟩ := Option.ite_none_right_eq_some.mp h
      cases hσ
      exact .selfEdge (List.mem_of_mem_head? hb)
  | removeStmt b s =>
    obtain ⟨⟨hb, hs⟩, hσ⟩ := Option.ite_none_right_eq_some.mp h
    exact .removeStmt hb hs hσ

variable (σ)

/-- Event after event. -/
def run (cg : CGOptions) (es : List (FlowEvent M)) : Option (FlowGraph M) :=
  Common.runEvents (fun (σ : FlowGraph M) (e : FlowEvent M) => σ.step cg e) σ es

end FlowGraph

end Generate

end CLSmith
