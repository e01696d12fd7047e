import Mathlib.Data.Finset.Lattice.Fold
import Mathlib.Logic.Function.Basic
/-!
# Removing unused variables

`CLVariable::ParseUnusedVars` collects the variables the statements of a
program use and removes the other local variables from their blocks. It goes
over `local_vars` and erases from it in the same loop, which ends the loop's
iterators: the pass is defined just where there is nothing to remove and
every initialiser it looks into is there.
-/

namespace CLSmith

namespace CLVariable

/-- Expressions, with the variables they name. Of the CL expressions only a
vector has expressions in it. -/
inductive Expression
  | variable (var : ℕ)
  | funcall (paramValue : List Expression)
  | assign (lhs : ℕ) (rhs : Expression)
  | vector (expressions : List Expression)
  | id
  | atomic (globalVar access : ℕ)
  | comma (lhs rhs : Expression)
  | constant
  | lhs (var : ℕ)

/-- Statements. A CL statement names variables in expressions of its own. -/
inductive Statement
  | assign (lhs : ℕ) (expr : Expression)
  | ret (var : ℕ)
  | for (init : ℕ × Expression) (test : Expression) (incr : ℕ × Expression)
  | ifElse (test : Expression)
  | invoke (call : Expression)
  | cont (test : Expression)
  | brk (test : Expression)
  | goto (test : Expression)
  | arrayOp (arrayVar : ℕ) (ctrlVars : List ℕ) (initValue : Expression)
  | clStatement (exprs : List Expression)
  | block

/-- A variable: a field has the variable it is a field of, an array item its
collective and its index. -/
structure Variable where
  name : List Char
  init : Option Expression := none
  fieldVarOf : Option ℕ := none
  fieldVars : List ℕ := []
  isArray : Bool := false
  collective : Option ℕ := none
  indices : List Expression := []

structure Block where
  localVars : List ℕ
  stms : List Statement

/-- **A program**; a number stands for a pointer. `blocks` are those of the
functions' `blocks`, `tree` those that are printed. -/
structure Program where
  var : ℕ → Variable
  block : ℕ → Block
  blocks : List ℕ
  tree : List ℕ

variable (P : Program)

/-- The digits of a field's number. -/
def fieldNumber (digits : List Char) : ℕ :=
  digits.foldl (fun n c => 10 * n + (c.toNat - '0'.toNat)) 0

/-- The numbers of the fields in the name of a field of an array item, after
the last bracket. -/
def fieldNumbers (name : List Char) : List ℕ :=
  (((name.reverse.takeWhile (· ≠ ']')).reverse.splitOn '.').drop 1).map fun s =>
    fieldNumber (s.drop 1)

/-- The first array a field is in, as far as the fuel goes. -/
def arrayParent : ℕ → ℕ → Option ℕ
  | 0, _ => none
  | n + 1, v =>
    match (P.var v).fieldVarOf with
    | none => none
    | some u => if (P.var u).isArray then some u else arrayParent n u

/-- **`get_collective`**. A variable is made after what it is a field of, which is
what the search for the array around a field counts down on. -/
def getCollective (v : ℕ) : ℕ :=
  if (P.var v).isArray then (P.var v).collective.getD v
  else
    match arrayParent P (v + 1) v with
    | none => v
    | some parent =>
      match (P.var parent).collective with
      | none => v
      | some coll =>
        (fieldNumbers (P.var v).name).foldl (fun coll i => (P.var coll).fieldVars.getD i coll) coll

mutual

/-- **`GetVarsFromExpr`**: the collective variables of the arrays and variables an
expression names. What an atomic expression or a left-hand side names is not looked
at. -/
def getVarsFromExpr : Expression → Finset ℕ
  | .variable v => {getCollective P v}
  | .funcall paramValue => getVarsFromExprs paramValue
  | .assign lhs rhs => {getCollective P lhs} ∪ getVarsFromExpr rhs
  | .vector expressions => getVarsFromExprs expressions
  | .id => ∅
  | .atomic _ _ => ∅
  | .comma lhs rhs => getVarsFromExpr lhs ∪ getVarsFromExpr rhs
  | .constant => ∅
  | .lhs _ => ∅

def getVarsFromExprs : List Expression → Finset ℕ
  | [] => ∅
  | e :: es => getVarsFromExpr e ∪ getVarsFromExprs es

end

/-- Global variables and parameters, by their names. -/
def isGlobalOrParameter (v : ℕ) : Bool :=
  ['g', '_'].isPrefixOf (P.var v).name || ['p', '_'].isPrefixOf (P.var v).name

/-- `RecordVar`. -/
def recordVar (v : ℕ) (accesses : Finset ℕ) : Finset ℕ :=
  if isGlobalOrParameter P v then accesses else insert v accesses

/-- `RecordMultipleVars`. -/
def recordMultipleVars (vars accesses : Finset ℕ) : Finset ℕ :=
  accesses ∪ vars.filter fun v => isGlobalOrParameter P v = false

/-- `RecordVarInitialisation`: every local variable has to have an initialiser. -/
def recordVarInitialisation (b : ℕ) (accesses : Finset ℕ) : Option (Finset ℕ) :=
  (P.block b).localVars.foldlM (fun accesses v => do
    let init ← (P.var v).init
    some (recordMultipleVars P (getVarsFromExpr P init) accesses)) accesses

/-- The cases of the `switch`. -/
def recordStatement (accesses : Finset ℕ) : Statement → Finset ℕ
  | .assign lhs expr =>
    recordMultipleVars P (getVarsFromExpr P expr) (recordVar P (getCollective P lhs) accesses)
  | .ret var => recordVar P (getCollective P var) accesses
  | .for init test incr =>
    let accesses := recordMultipleVars P (getVarsFromExpr P init.2) accesses
    let accesses := recordMultipleVars P (getVarsFromExpr P test) accesses
    let accesses := recordMultipleVars P (getVarsFromExpr P incr.2) accesses
    -- the variable of the increment is taken from the initialisation too
    recordVar P (getCollective P init.1) (recordVar P (getCollective P init.1) accesses)
  | .ifElse test => recordMultipleVars P (getVarsFromExpr P test) accesses
  | .invoke call => recordMultipleVars P (getVarsFromExpr P call) accesses
  | .cont test => recordMultipleVars P (getVarsFromExpr P test) accesses
  | .brk test => recordMultipleVars P (getVarsFromExpr P test) accesses
  | .goto test => recordMultipleVars P (getVarsFromExpr P test) accesses
  | .arrayOp arrayVar ctrlVars initValue =>
    let accesses := recordMultipleVars P (getVarsFromExpr P initValue) accesses
    let accesses := recordVar P (getCollective P arrayVar) accesses
    recordMultipleVars P ctrlVars.toFinset accesses
  | .clStatement _ => accesses
  | .block => accesses

/-- The variables of a block. -/
def recordBlock (accesses : Finset ℕ) (b : ℕ) : Option (Finset ℕ) := do
  let accesses ← recordVarInitialisation P b accesses
  some ((P.block b).stms.foldl (recordStatement P) accesses)

/-- The loop over the `local_vars` of a block, with its two iterators; one
that is no longer valid is `none`. -/
structure Loop where
  localVars : List ℕ
  it : Option ℕ
  last : Option ℕ

/-- `erase(remove(begin, end, v), end)`: the iterators from the first erased
place on are no longer valid. -/
def Loop.erase (v : ℕ) (s : Loop) : Loop :=
  let localVars := s.localVars.filter (· ≠ v)
  let valid (it : Option ℕ) := it.filter fun i =>
    decide (i < localVars.length ∨ localVars.length = s.localVars.length)
  ⟨localVars, valid s.it, valid s.last⟩

/-- The loop itself; it compares its iterators before each round. -/
def removeUnused (accesses : Finset ℕ) : ℕ → Loop → Option (List ℕ)
  | 0, _ => none
  | n + 1, s => do
    let i ← s.it
    let e ← s.last
    if i = e then some s.localVars
    else do
      let v ← s.localVars[i]?
      let s := if v ∈ accesses then s else s.erase v
      let i ← s.it
      removeUnused accesses n { s with it := some (i + 1) }

/-- **`ParseUnusedVars`**: the `local_vars` of the blocks afterwards. There is no
result where the loop that erases is left with an iterator it may not use. -/
def parseUnusedVars : Option (ℕ → List ℕ) := do
  let accesses ← P.blocks.foldlM (recordBlock P) ∅
  P.blocks.foldlM (fun localVars b => do
    let size := (localVars b).length
    let l ← removeUnused accesses (size + 1) ⟨localVars b, some 0, some size⟩
    some (Function.update localVars b l)) fun b => (P.block b).localVars

/-! ## Soundness -/

mutual

/-- The variables an expression names. -/
def Expression.names : Expression → List ℕ
  | .variable v => [v]
  | .funcall paramValue => Expression.namesAll paramValue
  | .assign l r => l :: r.names
  | .vector expressions => Expression.namesAll expressions
  | .id => []
  | .atomic globalVar access => [globalVar, access]
  | .comma l r => l.names ++ r.names
  | .constant => []
  | .lhs v => [v]

def Expression.namesAll : List Expression → List ℕ
  | [] => []
  | e :: es => e.names ++ Expression.namesAll es

end

/-- The variables a statement names. -/
def Statement.names : Statement → List ℕ
  | .assign lhs expr => lhs :: expr.names
  | .ret var => [var]
  | .for init test incr =>
    init.1 :: init.2.names ++ test.names ++ incr.1 :: incr.2.names
  | .ifElse test => test.names
  | .invoke call => call.names
  | .cont test => test.names
  | .brk test => test.names
  | .goto test => test.names
  | .arrayOp arrayVar ctrlVars initValue => arrayVar :: ctrlVars ++ initValue.names
  | .clStatement exprs => Expression.namesAll exprs
  | .block => []

/-- **What is printed**, where `kept` are the variables declared: the names in
statements and initialisers, and in the index of every array item named. A
field is printed with the index of the item it is a field of. -/
inductive Occurs (kept : ℕ → List ℕ) : ℕ → Prop
  | stm {b v : ℕ} {s : Statement} (hb : b ∈ P.tree) (hs : s ∈ (P.block b).stms) (hv : v ∈ s.names) :
      Occurs kept v
  | init {b u v : ℕ} {e : Expression} (hb : b ∈ P.tree) (hu : u ∈ kept b)
      (he : (P.var u).init = some e) (hv : v ∈ e.names) : Occurs kept v
  | index {u v : ℕ} {e : Expression} (hu : Occurs kept u) (he : e ∈ (P.var u).indices)
      (hv : v ∈ e.names) : Occurs kept v
  | field {u v : ℕ} (hu : Occurs kept u) (hv : (P.var u).fieldVarOf = some v) : Occurs kept v

/-- The variable whose declaration a name needs: of a field that of the
variable, of an item that of the array. -/
inductive DeclaredAs : ℕ → ℕ → Prop
  | variable {v : ℕ} (hv : (P.var v).fieldVarOf = none) : DeclaredAs v ((P.var v).collective.getD v)
  | field {u v d : ℕ} (hu : (P.var u).fieldVarOf = some v) (hv : DeclaredAs v d) : DeclaredAs u d

/-- **What is printed is declared**, if it was before. It is about the declarations of
local variables, which are all that the pass takes away. -/
def Sound (kept : ℕ → List ℕ) : Prop :=
  ∀ v d, Occurs P kept v → DeclaredAs P v d → ∀ b, d ∈ (P.block b).localVars → d ∈ kept b

/-! ## What is collected -/

mutual

/-- The variables that are looked for in an expression. -/
def Reads (w : ℕ) : Expression → Prop
  | .variable v => w = getCollective P v
  | .funcall paramValue => ReadsAny w paramValue
  | .assign lhs rhs => w = getCollective P lhs ∨ Reads w rhs
  | .vector expressions => ReadsAny w expressions
  | .comma lhs rhs => Reads w lhs ∨ Reads w rhs
  | .id | .atomic _ _ | .constant | .lhs _ => False

def ReadsAny (w : ℕ) : List Expression → Prop
  | [] => False
  | e :: es => Reads w e ∨ ReadsAny w es

end

/-- The variables that are looked for in a statement: none of a CL statement,
and in no index. -/
def UsedBy (w : ℕ) : Statement → Prop
  | .assign lhs expr => w = getCollective P lhs ∨ Reads P w expr
  | .ret var => w = getCollective P var
  | .for init test incr =>
    w = getCollective P init.1 ∨ Reads P w init.2 ∨ Reads P w test ∨ Reads P w incr.2
  | .ifElse e | .invoke e | .cont e | .brk e | .goto e => Reads P w e
  | .arrayOp arrayVar ctrlVars initValue =>
    w = getCollective P arrayVar ∨ w ∈ ctrlVars ∨ Reads P w initValue
  | .clStatement _ | .block => False

/-- A local variable is used in a statement of a block or in the initialiser
of one of its variables. -/
def UsedIn (w b : ℕ) : Prop :=
  isGlobalOrParameter P w = false ∧
    ((∃ v ∈ (P.block b).localVars, ∃ e, (P.var v).init = some e ∧ Reads P w e) ∨
      ∃ s ∈ (P.block b).stms, UsedBy P w s)

section Collect

variable {P} {w b : ℕ} {accesses : Finset ℕ}

mutual

theorem mem_getVarsFromExpr : ∀ e : Expression, w ∈ getVarsFromExpr P e ↔ Reads P w e
  | .variable v => by simp [getVarsFromExpr, Reads]
  | .funcall ps => by rw [getVarsFromExpr, Reads, mem_getVarsFromExprs ps]
  | .assign l r => by
    rw [getVarsFromExpr, Reads, Finset.mem_union, mem_getVarsFromExpr r, Finset.mem_singleton]
  | .vector es => by rw [getVarsFromExpr, Reads, mem_getVarsFromExprs es]
  | .comma l r => by
    rw [getVarsFromExpr, Reads, Finset.mem_union, mem_getVarsFromExpr l, mem_getVarsFromExpr r]
  | .id => by simp [getVarsFromExpr, Reads]
  | .atomic _ _ => by simp [getVarsFromExpr, Reads]
  | .constant => by simp [getVarsFromExpr, Reads]
  | .lhs _ => by simp [getVarsFromExpr, Reads]

theorem mem_getVarsFromExprs : ∀ es : List Expression, w ∈ getVarsFromExprs P es ↔ ReadsAny P w es
  | [] => by simp [getVarsFromExprs, ReadsAny]
  | e :: es => by
    rw [getVarsFromExprs, ReadsAny, Finset.mem_union, mem_getVarsFromExpr e,
      mem_getVarsFromExprs es]

end

@[simp] theorem mem_recordVar (v : ℕ) :
    w ∈ recordVar P v accesses ↔ w ∈ accesses ∨ isGlobalOrParameter P w = false ∧ w = v := by
  rw [recordVar]
  split
  · next h =>
    refine ⟨.inl, ?_⟩
    rintro (hw | ⟨hnot, rfl⟩)
    · exact hw
    · rw [h] at hnot
      cases hnot
  · next h =>
    rw [Finset.mem_insert, or_comm]
    refine or_congr_right ⟨?_, And.right⟩
    rintro rfl
    exact ⟨by simpa using h, rfl⟩

@[simp] theorem mem_recordMultipleVars (vars : Finset ℕ) :
    w ∈ recordMultipleVars P vars accesses ↔
      w ∈ accesses ∨ isGlobalOrParameter P w = false ∧ w ∈ vars := by
  rw [recordMultipleVars, Finset.mem_union, Finset.mem_filter, and_comm (a := w ∈ vars)]

/-- **One statement** adds the variables it uses. -/
theorem mem_recordStatement (s : Statement) :
    w ∈ recordStatement P accesses s ↔
      w ∈ accesses ∨ isGlobalOrParameter P w = false ∧ UsedBy P w s := by
  cases s <;> simp only [recordStatement, UsedBy, mem_recordVar, mem_recordMultipleVars,
    mem_getVarsFromExpr, List.mem_toFinset, and_false, or_false] <;> tauto

theorem mem_foldl_recordStatement (stms : List Statement) :
    w ∈ stms.foldl (recordStatement P) accesses ↔
      w ∈ accesses ∨ isGlobalOrParameter P w = false ∧ ∃ s ∈ stms, UsedBy P w s := by
  induction stms generalizing accesses with
  | nil => simp
  | cons s stms ih =>
    rw [List.foldl_cons, ih, mem_recordStatement]
    simp only [List.mem_cons, exists_eq_or_imp]
    tauto

/-- The initialisers of a block's variables, all of which there have to be. -/
theorem recordVarInitialisation_eq_some (l : List ℕ) {accesses' : Finset ℕ}
    (h : l.foldlM (fun accesses v => do
      let init ← (P.var v).init
      some (recordMultipleVars P (getVarsFromExpr P init) accesses)) accesses = some accesses') :
    (∀ v ∈ l, (P.var v).init.isSome) ∧ ∀ w, w ∈ accesses' ↔ w ∈ accesses ∨
      isGlobalOrParameter P w = false ∧ ∃ v ∈ l, ∃ e, (P.var v).init = some e ∧ Reads P w e := by
  induction l generalizing accesses with
  | nil =>
    cases h
    exact ⟨fun _ h => (List.not_mem_nil h).elim, fun w => by simp⟩
  | cons v l ih =>
    rw [List.foldlM_cons, Option.bind_eq_bind, Option.bind_eq_some_iff] at h
    obtain ⟨accesses₁, h₁, hrest⟩ := h
    rw [Option.bind_eq_bind, Option.bind_eq_some_iff] at h₁
    obtain ⟨init, hinit, h₁⟩ := h₁
    cases h₁
    obtain ⟨hsome, hmem⟩ := ih hrest
    have hv : (P.var v).init.isSome = true := by rw [hinit, Option.isSome_some]
    refine ⟨List.forall_mem_cons.mpr ⟨hv, hsome⟩, fun w => ?_⟩
    rw [hmem, mem_recordMultipleVars, mem_getVarsFromExpr]
    simp only [List.mem_cons, exists_eq_or_imp, hinit, Option.some.injEq, exists_eq_left']
    tauto

theorem exists_recordVarInitialisation (l : List ℕ) (accesses : Finset ℕ)
    (h : ∀ v ∈ l, (P.var v).init.isSome) :
    ∃ accesses', l.foldlM (fun accesses v => do
      let init ← (P.var v).init
      some (recordMultipleVars P (getVarsFromExpr P init) accesses)) accesses = some accesses' := by
  induction l generalizing accesses with
  | nil => exact ⟨accesses, rfl⟩
  | cons v l ih =>
    obtain ⟨hv, hl⟩ := List.forall_mem_cons.mp h
    obtain ⟨init, hinit⟩ := Option.isSome_iff_exists.mp hv
    obtain ⟨accesses', hrest⟩ := ih (recordMultipleVars P (getVarsFromExpr P init) accesses) hl
    refine ⟨accesses', ?_⟩
    rw [List.foldlM_cons, Option.bind_eq_bind, Option.bind_eq_some_iff]
    exact ⟨_, by rw [hinit]; rfl, hrest⟩

/-- **A block** adds what is used in it. -/
theorem recordBlock_eq_some {accesses' : Finset ℕ} (h : recordBlock P accesses b = some accesses') :
    (∀ v ∈ (P.block b).localVars, (P.var v).init.isSome) ∧
      ∀ w, w ∈ accesses' ↔ w ∈ accesses ∨ UsedIn P w b := by
  rw [recordBlock, Option.bind_eq_bind, Option.bind_eq_some_iff] at h
  obtain ⟨accesses₁, h₁, h₂⟩ := h
  cases h₂
  obtain ⟨hsome, hmem⟩ := recordVarInitialisation_eq_some _ h₁
  refine ⟨hsome, fun w => ?_⟩
  rw [mem_foldl_recordStatement, hmem, UsedIn, or_assoc, ← and_or_left]

theorem exists_recordBlock (accesses : Finset ℕ)
    (h : ∀ v ∈ (P.block b).localVars, (P.var v).init.isSome) :
    ∃ accesses', recordBlock P accesses b = some accesses' := by
  obtain ⟨accesses₁, h₁⟩ := exists_recordVarInitialisation _ accesses h
  refine ⟨(P.block b).stms.foldl (recordStatement P) accesses₁, ?_⟩
  rw [recordBlock, Option.bind_eq_bind, Option.bind_eq_some_iff]
  exact ⟨accesses₁, h₁, rfl⟩

/-- **What is collected** is what the statements and initialisers of the
blocks use. -/
theorem collect_eq_some (blocks : List ℕ) {accesses' : Finset ℕ}
    (h : blocks.foldlM (recordBlock P) accesses = some accesses') :
    (∀ b ∈ blocks, ∀ v ∈ (P.block b).localVars, (P.var v).init.isSome) ∧
      ∀ w, w ∈ accesses' ↔ w ∈ accesses ∨ ∃ b ∈ blocks, UsedIn P w b := by
  induction blocks generalizing accesses with
  | nil =>
    cases h
    exact ⟨fun _ h => (List.not_mem_nil h).elim, fun w => by simp⟩
  | cons b blocks ih =>
    rw [List.foldlM_cons, Option.bind_eq_bind, Option.bind_eq_some_iff] at h
    obtain ⟨accesses₁, h₁, hrest⟩ := h
    obtain ⟨hb, hmem₁⟩ := recordBlock_eq_some h₁
    obtain ⟨hblocks, hmem⟩ := ih hrest
    refine ⟨List.forall_mem_cons.mpr ⟨hb, hblocks⟩, fun w => ?_⟩
    rw [hmem, hmem₁]
    simp only [List.mem_cons, exists_eq_or_imp]
    tauto

theorem exists_collect (blocks : List ℕ) (accesses : Finset ℕ)
    (h : ∀ b ∈ blocks, ∀ v ∈ (P.block b).localVars, (P.var v).init.isSome) :
    ∃ accesses', blocks.foldlM (recordBlock P) accesses = some accesses' := by
  induction blocks generalizing accesses with
  | nil => exact ⟨accesses, rfl⟩
  | cons b blocks ih =>
    obtain ⟨hb, hblocks⟩ := List.forall_mem_cons.mp h
    obtain ⟨accesses₁, h₁⟩ := exists_recordBlock accesses hb
    obtain ⟨accesses', hrest⟩ := ih accesses₁ hblocks
    refine ⟨accesses', ?_⟩
    rw [List.foldlM_cons, Option.bind_eq_bind, Option.bind_eq_some_iff]
    exact ⟨accesses₁, h₁, hrest⟩

end Collect

/-! ## The loop that removes -/

section Remove

variable {accesses : Finset ℕ} {l : List ℕ} {v n i : ℕ}

/-- **Erasing ends the loop's last iterator**: from then on it is undefined. -/
theorem erase_last (hv : v ∈ l) (it : Option ℕ) :
    (Loop.erase v ⟨l, it, some l.length⟩).last = none := by
  have hlt : (l.filter (· ≠ v)).length < l.length := by
    refine List.length_filter_lt_length_iff_exists.mpr ⟨v, hv, ?_⟩
    simp
  have hout : ¬(l.length < (l.filter (· ≠ v)).length ∨ (l.filter (· ≠ v)).length = l.length) := by
    omega
  rw [Loop.erase]
  exact if_neg fun h => hout (of_decide_eq_true h)

theorem removeUnused_of_last {s : Loop} (h : s.last = none) : removeUnused accesses n s = none := by
  cases n with
  | zero => rfl
  | succ n =>
    rw [removeUnused, h]
    cases s.it <;> rfl

/-- **The loop goes through** just where it has nothing to remove. -/
theorem removeUnused_eq_some (hi : i ≤ l.length) (hn : l.length < i + n) (l' : List ℕ) :
    removeUnused accesses n ⟨l, some i, some l.length⟩ = some l' ↔
      (∀ v ∈ l.drop i, v ∈ accesses) ∧ l' = l := by
  induction n generalizing i with
  | zero => omega
  | succ n ih =>
    rw [removeUnused]
    simp only [Option.bind_eq_bind, Option.bind_some]
    by_cases hend : i = l.length
    · rw [if_pos hend, hend, List.drop_length]
      simp [eq_comm]
    · have hlt : i < l.length := by omega
      have hdrop : l.drop i = l[i] :: l.drop (i + 1) := List.drop_eq_getElem_cons hlt
      rw [if_neg hend, List.getElem?_eq_getElem hlt, Option.bind_some, hdrop, List.forall_mem_cons]
      by_cases hmem : l[i] ∈ accesses
      · rw [if_pos hmem]
        simp only [Option.bind_some]
        rw [ih (by omega) (by omega)]
        simp [hmem]
      · rw [if_neg hmem]
        simp only [hmem, false_and, iff_false]
        cases hit : (Loop.erase l[i] ⟨l, some i, some l.length⟩).it with
        | none => simp
        | some j =>
          rw [Option.bind_some, removeUnused_of_last]
          · simp
          · exact erase_last (List.getElem_mem hlt) _

end Remove

/-! ## When the pass is sound -/

section Sound

variable {P}

/-- The loops over the blocks leave them as they are, or are undefined. -/
theorem removeLoops_eq_some (accesses : Finset ℕ) (blocks : List ℕ) (kept : ℕ → List ℕ) :
    blocks.foldlM (fun localVars b => do
        let size := (localVars b).length
        let l ← removeUnused accesses (size + 1) ⟨localVars b, some 0, some size⟩
        some (Function.update localVars b l)) (fun b => (P.block b).localVars) = some kept ↔
      (∀ b ∈ blocks, ∀ v ∈ (P.block b).localVars, v ∈ accesses) ∧
        kept = fun b => (P.block b).localVars := by
  induction blocks with
  | nil => simp [eq_comm]
  | cons b blocks ih =>
    rw [List.foldlM_cons, List.forall_mem_cons]
    simp only [Option.bind_eq_bind, Option.bind_eq_some_iff, Option.some.injEq]
    constructor
    · rintro ⟨localVars, ⟨l, hl, rfl⟩, hrest⟩
      obtain ⟨hb, rfl⟩ := (removeUnused_eq_some (Nat.zero_le _) (by omega) l).mp hl
      rw [Function.update_eq_self b fun b => (P.block b).localVars] at hrest
      obtain ⟨hblocks, hkept⟩ := ih.mp hrest
      exact ⟨⟨hb, hblocks⟩, hkept⟩
    · rintro ⟨⟨hb, hblocks⟩, hkept⟩
      refine ⟨_, ⟨(P.block b).localVars, ?_, rfl⟩, ?_⟩
      · exact (removeUnused_eq_some (Nat.zero_le _) (by omega) _).mpr ⟨hb, rfl⟩
      · rw [Function.update_eq_self b fun b => (P.block b).localVars]
        exact ih.mpr ⟨hblocks, hkept⟩

/-- **`ParseUnusedVars` is sound**, and defined at all, just where every local
variable has an initialiser and is used: there is nothing to remove. A variable
without an initialiser is read through a null pointer, and one that is erased ends the
range the loop goes through. -/
theorem parseUnusedVars_sound_iff (P : Program) :
    (∃ kept, parseUnusedVars P = some kept ∧ Sound P kept) ↔
      ∀ b ∈ P.blocks, ∀ v ∈ (P.block b).localVars,
        (P.var v).init.isSome ∧ ∃ b ∈ P.blocks, UsedIn P v b := by
  constructor
  · rintro ⟨kept, hrun, -⟩
    rw [parseUnusedVars, Option.bind_eq_bind, Option.bind_eq_some_iff] at hrun
    obtain ⟨accesses, hcollect, hremove⟩ := hrun
    obtain ⟨hinit, hmem⟩ := collect_eq_some P.blocks hcollect
    obtain ⟨hall, -⟩ := (removeLoops_eq_some accesses P.blocks kept).mp hremove
    intro b hb v hv
    have hused := (hmem v).mp (hall b hb v hv)
    exact ⟨hinit b hb v hv, hused.resolve_left (Finset.notMem_empty v)⟩
  · intro h
    obtain ⟨accesses, hcollect⟩ := exists_collect P.blocks ∅ fun b hb v hv => (h b hb v hv).1
    obtain ⟨-, hmem⟩ := collect_eq_some P.blocks hcollect
    refine ⟨fun b => (P.block b).localVars, ?_, fun _ _ _ _ _ hd => hd⟩
    rw [parseUnusedVars, Option.bind_eq_bind, Option.bind_eq_some_iff]
    refine ⟨accesses, hcollect, (removeLoops_eq_some accesses P.blocks _).mpr ⟨?_, rfl⟩⟩
    exact fun b hb v hv => (hmem v).mpr (.inr (h b hb v hv).2)

/-- `int l_1 = 0; int l_2 = 0; return l_1;`. -/
def unusedProgram : Program where
  var v := match v with
    | 1 => { name := "l_1".toList, init := some .constant }
    | 2 => { name := "l_2".toList, init := some .constant }
    | _ => { name := [] }
  block _ := ⟨[1, 2], [.ret 1]⟩
  blocks := [0]
  tree := [0]

/-- **A variable nobody uses** is removed, and to remove it ends the iterators in use. -/
theorem not_sound_unused :
    ¬ UsedIn unusedProgram 2 0 ∧ parseUnusedVars unusedProgram = none ∧
      ¬ ∃ kept, parseUnusedVars unusedProgram = some kept ∧ Sound unusedProgram kept := by
  have hnone : parseUnusedVars unusedProgram = none := by decide
  refine ⟨?_, hnone, ?_⟩
  · rintro ⟨-, ⟨v, hv, e, he, hread⟩ | ⟨s, hs, hused⟩⟩
    · have hv' : v = 1 ∨ v = 2 := by simpa [unusedProgram] using hv
      rcases hv' with rfl | rfl <;> cases he <;> exact hread
    · obtain rfl := List.mem_singleton.mp hs
      have hcoll : 2 = getCollective unusedProgram 1 := hused
      exact absurd hcoll (by decide)
  · rintro ⟨kept, hrun, -⟩
    rw [hnone] at hrun
    cases hrun

end Sound

end CLVariable

end CLSmith
