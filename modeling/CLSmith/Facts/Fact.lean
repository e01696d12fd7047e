import CLSmith.Common.Keyed
import Mathlib.Data.Finset.Basic
/-!
# Facts

`FactPointTo` and `FactUnion` with their lattice functions, and the functions
of `Fact.cpp` on vectors of facts. `union_read_type_sensitive` is off, as
`ResolveCGOptions` sets it, so that nothing is asked of the types of fields.
-/

namespace CLSmith

namespace Facts

open Common

variable {V : Type}

/-- `eFactCategory`. -/
inductive FactCategory
  | pointTo | unionWrite
deriving DecidableEq

/-- **A fact**: what a pointer can point to, or the field of a union that was
written last. -/
inductive Fact (V : Type)
  | pointTo (var : V) (pointToVars : List V)
  | unionWrite (var : V) (lastWrittenFid : ℤ)
deriving DecidableEq

/-- `FactUnion::TOP`. -/
def top : ℤ := -2

/-- `FactUnion::BOTTOM`. -/
def bottom : ℤ := -1

/-- A vector of facts. -/
abbrev FactVec (V : Type) := List (Fact V)

variable [DecidableEq V]

/-! ## Sets of variables -/

/-- `equal_variable_sets`. -/
def equalVariableSets (set1 set2 : List V) : Bool :=
  if set1.length = set2.length then set1.all fun v => decide (v ∈ set2) else false

/-- `sub_variable_sets`. -/
def subVariableSets (set1 set2 : List V) : Bool :=
  if set1.length ≤ set2.length then set1.all fun v => decide (v ∈ set2) else false

/-- The loop of `FactPointTo::join`. -/
def addVariables (set : List V) : List V → List V
  | [] => set
  | v :: vars => if v ∈ set then addVariables set vars else addVariables (set ++ [v]) vars

/-! ## One fact -/

namespace Fact

def eCat : Fact V → FactCategory
  | pointTo _ _ => .pointTo
  | unionWrite _ _ => .unionWrite

def getVar : Fact V → V
  | pointTo v _ => v
  | unionWrite v _ => v

/-- What a fact is about. -/
def key (f : Fact V) : FactCategory × V := (f.eCat, f.getVar)

/-- `is_related`. -/
def isRelated (f g : Fact V) : Bool := decide (f.eCat = g.eCat) && decide (f.getVar = g.getVar)

def equal : Fact V → Fact V → Bool
  | pointTo v s, pointTo w t => decide (v = w) && equalVariableSets s t
  | unionWrite v m, unionWrite w n => decide (v = w) && decide (m = n)
  | _, _ => false

/-- `imply`: merging with the other fact causes no change to this one. -/
def imply : Fact V → Fact V → Bool
  | pointTo v s, pointTo w t => decide (v = w) && subVariableSets t s
  | unionWrite v m, unionWrite w n =>
    if v = w then
      if m = bottom then true else if n = bottom then false else decide (m = n)
    else false
  | _, _ => false

/-- `join`, which changes the first fact. -/
def join : Fact V → Fact V → Fact V
  | pointTo v s, pointTo w t => if v = w then pointTo v (addVariables s t) else pointTo v s
  | unionWrite v m, unionWrite w n =>
    if v = w then
      if (unionWrite v m).imply (unionWrite w n) then unionWrite v m
      else if (unionWrite w n).imply (unionWrite v m) then unionWrite v n
      else unionWrite v bottom
    else unionWrite v m
  | f, _ => f

end Fact

/-! ## Vectors of facts -/

/-- `find_fact`, as far as it is asked whether there is one. -/
def findFact (facts : FactVec V) (fact : Fact V) : Bool := facts.any fun f => fact.equal f

/-- `find_related_fact`. -/
def findRelatedFact (facts : FactVec V) (new_fact : Fact V) : Option (Fact V) :=
  facts.find? fun f => new_fact.isRelated f

/-- **`merge_fact`**, with whether it changed anything. A fact that does not
imply the new one makes place for a copy of that, joined with it. -/
def mergeFact : FactVec V → Fact V → FactVec V × Bool
  | [], new_fact => ([new_fact], true)
  | f :: facts, new_fact =>
    if f.isRelated new_fact then
      if f.imply new_fact then (f :: facts, false) else (new_fact.join f :: facts, true)
    else
      let (facts, changed) := mergeFact facts new_fact
      (f :: facts, changed)

/-- **`merge_facts`**: the new facts one after the other, and whether any of them
changed anything. -/
def mergeFacts : FactVec V → FactVec V → FactVec V × Bool
  | facts, [] => (facts, false)
  | facts, f :: new_facts =>
    let (facts, changed) := mergeFact facts f
    let (facts, changed') := mergeFacts facts new_facts
    (facts, changed || changed')

/-- **`same_facts`.** There are as many of one as of the other, and each of the first
is among the second. -/
def sameFacts (facts1 facts2 : FactVec V) : Bool :=
  if facts1.length = facts2.length then facts1.all fun f => findFact facts2 f else false

end Facts

end CLSmith
