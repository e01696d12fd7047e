import Mathlib.Data.List.Lex
import Mathlib.Logic.Function.Basic
/-!
# Choices by depth-first search

`DFSRndNumGenerator`: the random choices of the exhaustive mode. Each run of
the generator revisits the choices of the one before down to the decision
depth, takes the next value there, and goes on with first values; a node
without a value left ends the run, and the next one backs up.

`goGenerator` repeats the run until `all_done_`. A run is a tree of requests,
each with what the choices so far make it: the bound, the filter and the
invalid numbers. A debug sequence is not set.
-/

namespace CLSmith

namespace Exhaustive

/-- `Error::r_error_`, as far as choices set it: to backtrack, and for a sequence that
is longer than allowed. -/
inductive Error
  | success | backtracking | exceedMaxDepth
deriving DecidableEq

/-- **The data of one choice**; `index_` is only printed. A choice that was not made
yet is not `init`. -/
structure SearchState where
  init : Bool := false
  value : ℕ := 0
  bound : ℕ := 0

/-- **The search.** `states_` has `max_exhaustive_depth` entries; the depth of the
decisions made and the position in the current run start at `-1`. -/
structure DFSRndNumGenerator where
  decisionDepth : ℤ := -1
  currentPos : ℤ := -1
  allDone : Bool := false
  seq : ℤ → Option ℕ := fun _ => none
  states : ℤ → SearchState := fun _ => {}
  error : Error := .success

/-- A request: what `random_choice` is called with, the values it rejects by a filter
or a list included. -/
structure Request where
  bound : ℕ
  filter : Option (ℕ → Bool)
  invalidNums : Option (List ℕ)

namespace Request

variable (r : Request)

/-- `filter_invalid_nums`. -/
def filterInvalidNums (v : ℕ) : Bool :=
  match r.invalidNums with
  | none => false
  | some nums => decide (v ∈ nums)

/-- Whether a value is filtered out. -/
def bad (v : ℕ) : Bool :=
  (match r.filter with
    | none => false
    | some f => f v) || r.filterInvalidNums v

/-- The first value from `v` on that is not filtered out, or the bound. -/
def skipFrom : ℕ → ℕ → ℕ
  | 0, v => v
  | n + 1, v => if decide (v < r.bound) && r.bad v then skipFrom n (v + 1) else v

end Request

namespace DFSRndNumGenerator

variable (maxDepth : ℕ) (g : DFSRndNumGenerator)

/-- `states_[i]`, changed. -/
def setState (i : ℤ) (s : SearchState) : DFSRndNumGenerator :=
  { g with states := Function.update g.states i s }

/-- `states_[i]->set_init(false)` from `d` on. -/
def uninit (d : ℤ) : DFSRndNumGenerator :=
  { g with
    states := fun i => if d ≤ i ∧ i < maxDepth then
      { g.states i with init := false } else g.states i }

/-- `states_[i]->set_value(0)` from `d` on. -/
def zeroValues (d : ℤ) : DFSRndNumGenerator :=
  { g with
    states := fun i => if d ≤ i ∧ i < maxDepth then { g.states i with value := 0 } else g.states i }

/-- `seq_->add_number`, and the value returned. -/
def take (v : ℕ) : DFSRndNumGenerator × Option ℕ :=
  ({ g with seq := Function.update g.seq g.currentPos (some v) }, some v)

/-- No value is left: the next run is to back up. -/
def backtrack : DFSRndNumGenerator × Option ℕ :=
  let g := g.uninit maxDepth g.currentPos
  ({ g with
    decisionDepth := g.decisionDepth - 1
    allDone := g.allDone || decide (g.decisionDepth - 1 < 0)
    error := .backtracking }, none)

/-- `revisit_node`, with its assertions. -/
def revisitNode (r : Request) : Option (DFSRndNumGenerator × Option ℕ) :=
  let rv := (g.states g.currentPos).value
  if r.filter.isSome && (decide (r.bound ≤ rv) || decide ((maxDepth : ℤ) ≤ g.currentPos)) then none
  else some (g.take rv)

/-- A node with a value: on to the next one. -/
def switchBranch (r : Request) : DFSRndNumGenerator × Option ℕ :=
  let s := g.states g.currentPos
  let v := r.skipFrom r.bound (s.value + 1)
  let g := g.setState g.currentPos { s with value := v }
  if r.bound ≤ v then g.backtrack maxDepth else g.take v

/-- The loop over the values of a new node that are filtered out. -/
def firstLoop (r : Request) : ℕ → ℕ → DFSRndNumGenerator → DFSRndNumGenerator × ℕ
  | 0, v, g => (g, v)
  | n + 1, v, g =>
    if decide (v < r.bound) && r.bad v then
      let g := g.zeroValues maxDepth g.decisionDepth
      firstLoop r n (v + 1) { g with decisionDepth := g.currentPos }
    else (g, v)

/-- A node seen for the first time. -/
def firstVisit (r : Request) : DFSRndNumGenerator × Option ℕ :=
  let g := { g with decisionDepth := g.decisionDepth + 1 }
  let g := g.setState g.currentPos ⟨true, 0, r.bound⟩
  let v := (firstLoop maxDepth r r.bound 0 g).2
  let g := (firstLoop maxDepth r r.bound 0 g).1
  let g := { g with decisionDepth := g.currentPos }
  if r.bound ≤ v then g.backtrack maxDepth
  else (g.setState g.currentPos { g.states g.currentPos with value := v }).take v

/-- **`random_choice`**; no value stands for `-1`, and a failed assertion ends
the program. -/
def randomChoice (r : Request) : Option (DFSRndNumGenerator × Option ℕ) :=
  match g.error with
  | .backtracking => some (g, none)
  | .exceedMaxDepth => none
  | .success =>
    let g := { g with currentPos := g.currentPos + 1 }
    if (maxDepth : ℤ) ≤ g.currentPos ∨ (maxDepth : ℤ) ≤ g.decisionDepth then
      some ({ g with error := .exceedMaxDepth }, none)
    else
      let g := g.setState g.currentPos { g.states g.currentPos with bound := r.bound }
      if g.currentPos < g.decisionDepth ∧ (g.states g.currentPos).init then
        g.revisitNode maxDepth r
      else if (g.states g.currentPos).init then some (g.switchBranch maxDepth r)
      else some (g.firstVisit maxDepth r)

/-- `reset_state`. -/
def resetState : DFSRndNumGenerator := { g with currentPos := -1, seq := fun _ => none }

end DFSRndNumGenerator

/-! ## Runs -/

/-- **The choices of a run**, each asked for after those before it. Which comes next
depends on the values the earlier ones were given, and nothing else. -/
inductive Tree
  | leaf
  | node (r : Request) (next : ℕ → Tree)

namespace Tree

/-- The number of choices of the longest run. -/
def depth : Tree → ℕ
  | leaf => 0
  | node r next => (List.range r.bound).foldr (fun v m => max (next v).depth m) 0 + 1

/-- The choices are values within the bounds that are not filtered out. -/
def Follows : Tree → List ℕ → Prop
  | _, [] => True
  | leaf, _ :: _ => False
  | node r next, v :: l => v < r.bound ∧ r.bad v = false ∧ (next v).Follows l

/-- So they are, and end in a leaf. -/
def Reaches : Tree → List ℕ → Prop
  | leaf, l => l = []
  | node _ _, [] => False
  | node r next, v :: l => v < r.bound ∧ r.bad v = false ∧ (next v).Reaches l

/-- A run of the generator, and the values it has been given: it stops at the
first `-1`. -/
def generate (maxDepth : ℕ) :
    Tree → DFSRndNumGenerator → Option (DFSRndNumGenerator × List ℕ)
  | leaf, g => some (g, [])
  | node r next, g =>
    match g.randomChoice maxDepth r with
    | none => none
    | some (g, none) => some (g, [])
    | some (g, some v) => ((next v).generate maxDepth g).map fun x => (x.1, v :: x.2)

end Tree

/-- What is left of a run: the values, and whether it went through. -/
structure Run where
  choices : List ℕ
  success : Bool

/-- The loop of `goGenerator`, for at most `n` runs. -/
def goGenerator (maxDepth : ℕ) (t : Tree) :
    ℕ → DFSRndNumGenerator → Option (DFSRndNumGenerator × List Run)
  | 0, g => if g.allDone then some (g, []) else none
  | n + 1, g =>
    if g.allDone then some (g, [])
    else
      match t.generate maxDepth { g with error := .success } with
      | none => none
      | some (g, choices) =>
        (goGenerator maxDepth t n g.resetState).map fun x =>
          (x.1, ⟨choices, decide (g.error = .success)⟩ :: x.2)

/-- The successful runs. -/
def programs (runs : List Run) : List (List ℕ) := (runs.filter (·.success)).map (·.choices)

end Exhaustive

end CLSmith
