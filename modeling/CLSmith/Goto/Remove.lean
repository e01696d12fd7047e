import CLSmith.Goto.Generate
/-!
# Control flow edges, returns, and the removal of statements

A function with its control flow edges and the `break_stms` of its blocks:
`must_return` of statements and blocks, `Block::remove_stmt`, and the
deletion of a tail in `Block::post_creation_analysis`. What the fixed point
search finds is a parameter: the indices at which the analyser fails, one
search after the other. The number of removed statements, which nothing
reads, is left out.
-/

namespace CLSmith

namespace Generate

variable {M : Type}

/-- A statement as the edges know it: blocks are statements too. -/
inductive Node
  | stm (s : ℕ)
  | block (b : ℕ)
deriving DecidableEq

/-- A `CFGEdge`: from where and to where control goes, whether it goes behind the
target, and whether back. -/
structure CFGEdge where
  src : Node
  dest : Node
  postDest : Bool
  backLink : Bool
deriving DecidableEq

/-- **A function with its control flow**: the edges of its fact manager, and for each
block the jumps that break out of it and the statements deleted from it. -/
structure FlowGraph (M : Type) where
  func : Func M
  cfgEdges : List CFGEdge := []
  breakStms : ℕ → List ℕ := fun _ => []
  deletedStms : ℕ → List ℕ := fun _ => []

namespace FlowGraph

variable (σ : FlowGraph M)

/-- `stms` of a block. -/
def stms (b : ℕ) : List ℕ := (σ.func.block b).stms

/-- `eType`, with what the statement refers to. -/
def kind (s : ℕ) : Kind M := (σ.func.stm s).kind

/-- `parent` of a statement. -/
def parent (s : ℕ) : ℕ := (σ.func.stm s).parent

/-- `looping`. -/
def looping (b : ℕ) : Bool := decide ((σ.func.block b).role = .loop)

/-! ## Returns -/

/-- `find_edges_in` of a block, with the back links that do not lead behind it. -/
def backEdges (b : ℕ) : List CFGEdge :=
  σ.cfgEdges.filter fun e => decide (e.dest = .block b) && e.backLink && !e.postDest

/-- `Block::must_return`, by what its last statement must do. -/
def blockMustReturn (last : ℕ → Bool) (b : ℕ) : Bool :=
  decide (σ.breakStms b = []) && (σ.func.getLastStm b).any last &&
    (σ.backEdges b).all fun e => decide (e.src = .block b)

/-- `must_return` of a statement, as far as the fuel goes. -/
def stmMustReturnFrom : ℕ → ℕ → Bool
  | 0, _ => false
  | n + 1, s =>
    match σ.kind s with
    | .ret => true
    | .ifElse _ t e =>
      σ.blockMustReturn (stmMustReturnFrom n) t && σ.blockMustReturn (stmMustReturnFrom n) e
    | _ => false

/-- **`must_return`** of a statement; a nested block is a younger one, which bounds
the recursion. -/
def stmMustReturn (s : ℕ) : Bool := σ.stmMustReturnFrom (σ.func.nextBlock + 1) s

/-- **`must_return`** of a block: its last statement must return, nothing breaks out
of it, and an edge back to it is one of its own. -/
def mustReturn (b : ℕ) : Bool := σ.blockMustReturn σ.stmMustReturn b

/-- `must_break_or_return`. -/
def mustBreakOrReturn (b : ℕ) : Bool :=
  (σ.func.getLastStm b).any σ.stmMustReturn &&
    (σ.backEdges b).all fun e => decide (e.src = .block b)

/-- `Block::must_jump`, by what its last statement must do. -/
def blockMustJump (last : ℕ → Bool) (b : ℕ) : Bool :=
  decide (σ.breakStms b = []) && (σ.func.getLastStm b).any last

/-- `must_jump`, as far as the fuel goes; `notZero` are the statements with a
test that `not_equals(0)`. -/
def stmMustJumpFrom (notZero : ℕ → Bool) : ℕ → ℕ → Bool
  | 0, _ => false
  | n + 1, s =>
    match σ.kind s with
    | .ret => true
    | .brk _ => notZero s
    | .cont _ => notZero s
    | .goto _ _ => notZero s
    | .ifElse _ t e =>
      σ.blockMustJump (stmMustJumpFrom notZero n) t && σ.blockMustJump (stmMustJumpFrom notZero n) e
    | _ => false

/-- `from_tail_to_head`. -/
def fromTailToHead (notZero : ℕ → Bool) (b : ℕ) : Bool :=
  σ.looping b && (σ.func.getLastStm b).any fun s =>
    !σ.stmMustJumpFrom notZero (σ.func.nextBlock + 1) s

/-! ## Containment -/

/-- `find_typed_stmts` with `eContinue`, `eBreak` and `eGoto`, as far as the
fuel goes. -/
def typedStmsFrom : ℕ → ℕ → List ℕ
  | 0, _ => []
  | n + 1, s =>
    match σ.kind s with
    | .brk _ => [s]
    | .cont _ => [s]
    | .goto _ _ => [s]
    | k => k.blocks.flatMap fun c => (σ.stms c).flatMap (typedStmsFrom n)

/-- `find_typed_stmts`. -/
def typedStms (s : ℕ) : List ℕ := σ.typedStmsFrom (σ.func.nextBlock + 1) s

/-- `contains_stmt` of a block. -/
def containsBlock (s b : ℕ) : Bool := (σ.kind s).blocks.any fun c => decide (c ∈ σ.func.chain b)

/-- **`contains_stmt`**: whether the statement `s` is the one given, or has it, or the
block given, somewhere in its blocks. -/
def contains (s : ℕ) : Node → Bool
  | .stm t => decide (s = t) || σ.containsBlock s (σ.parent t)
  | .block b => σ.containsBlock s b

/-! ## Removal -/

/-- The part of `remove_stmt` about the jumps inside the statement: they leave
the `break_stms` of the loop around it, and their edges go. -/
def dropJumps (b s : ℕ) : FlowGraph M :=
  { σ with
    breakStms :=
      match (σ.func.chain b).find? σ.looping with
      | some l =>
        Function.update σ.breakStms l
          ((σ.breakStms l).filter fun x => decide (x ∉ σ.typedStms s))
      | none => σ.breakStms
    cfgEdges := σ.cfgEdges.filter fun e =>
      match e.src with
      | .stm t => decide (t ∉ σ.typedStms s)
      | .block _ => true }

/-- The loop over the edges that lead into `s`, where `rm` removes a statement:
each is erased, and a goto it comes from removed. The loop starts again where
edges have gone meanwhile, so that it finds the first one every time. -/
def removeEdges (rm : ℕ → ℕ → FlowGraph M → Option (FlowGraph M)) (s : ℕ) :
    ℕ → FlowGraph M → Option (FlowGraph M)
  | 0, _ => none
  | n + 1, σ =>
    match σ.cfgEdges.find? fun e => σ.contains s e.dest with
    | none => some σ
    | some e =>
      let σ := { σ with cfgEdges := σ.cfgEdges.erase e }
      match e.src with
      | .stm g =>
        match σ.kind g with
        | .goto _ _ => (rm (σ.parent g) g σ).bind (removeEdges rm s n)
        | _ => removeEdges rm s n σ
      | .block _ => removeEdges rm s n σ

/-- The end of `remove_stmt`: the blocks inside the statement, and itself. -/
def eraseStmt (b s : ℕ) : FlowGraph M :=
  let func := { σ.func with blocks := σ.func.blocks.filter fun d => !σ.containsBlock s d }
  if s ∈ σ.stms b then
    { σ with
      func := func.setStms b ((σ.stms b).erase s)
      deletedStms := Function.update σ.deletedStms b (σ.deletedStms b ++ [s]) }
  else { σ with func := func }

/-- `remove_stmt`, as far as the fuel goes. -/
def removeStmtFrom : ℕ → ℕ → ℕ → FlowGraph M → Option (FlowGraph M)
  | 0, _, _, _ => none
  | n + 1, b, s, σ =>
    let σ := σ.dropJumps b s
    (removeEdges (removeStmtFrom n) s (σ.cfgEdges.length + 1) σ).map fun σ => σ.eraseStmt b s

/-- **`remove_stmt`** of the block `b`: every removal that follows from one has
an edge less. -/
def removeStmt (b s : ℕ) : Option (FlowGraph M) := removeStmtFrom (σ.cfgEdges.length + 1) b s σ

/-- The loop that deletes the tail of a block, as far as the fuel goes. -/
def deleteTailFrom (b index : ℕ) : ℕ → FlowGraph M → Option (FlowGraph M)
  | 0, _ => none
  | n + 1, σ =>
    match (σ.stms b)[index]? with
    | none => some σ
    | some s => (σ.removeStmt b s).bind (deleteTailFrom b index n)

/-- **The deletion of a tail**, from the index where the analyser fails. The index
stays the same while the list gets shorter, also in front of it. -/
def deleteTail (b index : ℕ) : Option (FlowGraph M) :=
  deleteTailFrom b index ((σ.stms b).length + 1) σ

/-! ## After the creation of a block -/

/-- `create_cfg_edge` from the tail of a block to its head. -/
def selfEdge (b : ℕ) : FlowGraph M :=
  { σ with cfgEdges := σ.cfgEdges ++ [⟨.block b, .block b, false, true⟩] }

/-- The loop around the fixed point search, which fails at each of the indices
in turn. -/
def deleteTails (notZero : ℕ → Bool) (b : ℕ) :
    List ℕ → Bool → FlowGraph M → Option (FlowGraph M)
  | [], _, σ => some σ
  | index :: fails, selfBackEdge, σ =>
    (σ.deleteTail b index).bind fun σ =>
      if !selfBackEdge && σ.fromTailToHead notZero b then
        deleteTails notZero b fails true (σ.selfEdge b)
      else deleteTails notZero b fails selfBackEdge σ

/-- `append_return_stmt`. -/
def appendReturn (b : ℕ) : FlowGraph M :=
  { σ with func := σ.func.newStm b .ret [] (σ.stms b ++ [σ.func.nextStm]) }

/-- **`post_creation_analysis`**, in a function that needs a return statement or
not; `needRevisit` is set by backward gotos. -/
def postCreationAnalysis (notZero : ℕ → Bool) (needRevisit needReturn : Bool) (fails : List ℕ)
    (b : ℕ) : Option (FlowGraph M) :=
  let isLoopBody := !σ.mustBreakOrReturn b && σ.looping b
  let analysed :=
    if isLoopBody || needRevisit || !(σ.backEdges b).isEmpty then
      if isLoopBody && σ.fromTailToHead notZero b then
        deleteTails notZero b fails true (σ.selfEdge b)
      else deleteTails notZero b fails false σ
    else some σ
  analysed.map fun σ =>
    if (σ.func.block b).parent = none ∧ needReturn = true ∧ σ.mustReturn b = false then
      σ.appendReturn b
    else σ

end FlowGraph

end Generate

end CLSmith
