import CLSmith.Goto.Generate
/-!
# Running a kernel with EMI sections

The control flow of a program's functions, run by any number of threads on
one memory, with the `emi_input` the launcher writes. A call may happen at
any statement that has it in one of its expressions, and returns there.
-/

namespace CLSmith

namespace EMI

open Generate

/-- `emi_values`, as far as the buffer goes. -/
def emiValues (i : ℕ) : Option ℤ := if i < 1024 then some (1024 - i) else none

/-- The test `emi_input[i] < emi_input[j]`. -/
def emiTest (i j : ℕ) : Option Bool :=
  match emiValues i, emiValues j with
  | some x, some y => some (decide (x < y))
  | _, _ => none

/-- **A section's test is false**: the values fall, and a section compares
an item with the one after it. -/
theorem emiTest_succ {i : ℕ} (h : i + 1 < 1024) : emiTest i (i + 1) = some false := by
  have hi : i < 1024 := by omega
  have hlt : ¬ ((1024 : ℤ) - i < 1024 - (i + 1 : ℕ)) := by omega
  unfold emiTest emiValues
  rw [if_pos hi, if_pos h]
  simp only [hlt, decide_false]

/-- Where control is in a function: before a statement, or at the end of a
block. -/
inductive Loc
  | before (s : ℕ)
  | endOf (b : ℕ)

variable {M : Type}

/-- Control enters a block. -/
def enter (f : Func M) (b : ℕ) : Loc :=
  match (f.block b).stms with
  | s :: _ => .before s
  | [] => .endOf b

/-- Control goes on after a statement. -/
def after (f : Func M) (s : ℕ) : Loc :=
  match ((f.block (f.stm s).parent).stms.dropWhile (· ≠ s)).tail with
  | t :: _ => .before t
  | [] => .endOf (f.stm s).parent

/-- `s` is the statement the block `b` belongs to. -/
def Owns (f : Func M) (s b : ℕ) : Prop :=
  s ∈ (f.block (f.stm s).parent).stms ∧ b ∈ (f.stm s).kind.blocks

/-- The innermost loop body around a statement. -/
def loopBody (f : Func M) (s : ℕ) : Option ℕ :=
  (f.chain (f.stm s).parent).find? fun b => decide ((f.block b).role = .loop)

/-- **One step inside a function.** Every test is a function of the memory, and so is
what a plain statement does; a section is entered as any branch is, when its test
holds. -/
inductive LocalStep (f : Func M) : M → Loc → M → Loc → Prop
  | simple {m s run} (h : (f.stm s).kind = .simple run) :
    LocalStep f m (.before s) (run m) (after f s)
  | brkTaken {m s test l s'} (h : (f.stm s).kind = .brk test) (ht : test m = true)
      (hl : loopBody f s = some l) (ho : Owns f s' l) :
    LocalStep f m (.before s) m (after f s')
  | brkPassed {m s test} (h : (f.stm s).kind = .brk test) (ht : test m = false) :
    LocalStep f m (.before s) m (after f s)
  | contTaken {m s test l} (h : (f.stm s).kind = .cont test) (ht : test m = true)
      (hl : loopBody f s = some l) :
    LocalStep f m (.before s) m (.endOf l)
  | contPassed {m s test} (h : (f.stm s).kind = .cont test) (ht : test m = false) :
    LocalStep f m (.before s) m (after f s)
  | gotoTaken {m s test dest} (h : (f.stm s).kind = .goto test dest) (ht : test m = true) :
    LocalStep f m (.before s) m (.before dest)
  | gotoPassed {m s test dest} (h : (f.stm s).kind = .goto test dest) (ht : test m = false) :
    LocalStep f m (.before s) m (after f s)
  | ifElse {m s test t e} (h : (f.stm s).kind = .ifElse test t e) :
    LocalStep f m (.before s) m (enter f (if test m then t else e))
  | forLoop {m s init test incr b} (h : (f.stm s).kind = .forLoop init test incr b) :
    LocalStep f m (.before s) (init m) (if test (init m) then enter f b else after f s)
  | emi {m s i j t e r} (h : (f.stm s).kind = .emi i j t e) (hr : emiTest i j = some r) :
    LocalStep f m (.before s) m (enter f (if r then t else e))
  | endBranch {m s test t e b} (h : (f.stm s).kind = .ifElse test t e) (ho : Owns f s b) :
    LocalStep f m (.endOf b) m (after f s)
  | endEmi {m s i j t e b} (h : (f.stm s).kind = .emi i j t e) (ho : Owns f s b) :
    LocalStep f m (.endOf b) m (after f s)
  | endLoop {m s init test incr b} (h : (f.stm s).kind = .forLoop init test incr b)
      (ho : Owns f s b) :
    LocalStep f m (.endOf b) (incr m) (if test (incr m) then enter f b else after f s)

/-- A kernel's state: the memory, and each thread's calls, the innermost
first. -/
structure Config (M : Type) where
  mem : M
  threads : ℕ → List (ℕ × Loc)

/-- **One step of a thread.** The body of a function is the first block
made for it. -/
inductive Step (P : ℕ → Func M) : Config M → Config M → Prop
  | run {c t i l rest m' l'} (h : c.threads t = (i, l) :: rest)
      (hs : LocalStep (P i) c.mem l m' l') :
    Step P c ⟨m', Function.update c.threads t ((i, l') :: rest)⟩
  | call {c t i s rest j} (h : c.threads t = (i, .before s) :: rest)
      (hc : j ∈ ((P i).stm s).calls) :
    Step P c ⟨c.mem, Function.update c.threads t ((j, enter (P j) 0) :: (i, .before s) :: rest)⟩
  | ret {c t i s rest} (h : c.threads t = (i, .before s) :: rest)
      (hr : ((P i).stm s).kind = .ret) :
    Step P c ⟨c.mem, Function.update c.threads t rest⟩
  | fallOff {c t i b rest} (h : c.threads t = (i, .endOf b) :: rest)
      (hb : ((P i).block b).parent = none) :
    Step P c ⟨c.mem, Function.update c.threads t rest⟩

/-- The runs of a kernel whose threads all enter the function `main`. -/
def kernel (P : ℕ → Func M) (main : ℕ) : Common.System (Config M) where
  Init c := ∀ t, c.threads t = [(main, enter (P main) 0)]
  Step := Step P

/-- **EMI sections are dead**: no test holds, no goto leads into a section
from outside it, and no run comes to a statement of a true block. -/
structure Dead (P : ℕ → Func M) : Prop where
  test_false : ∀ i b i₁ i₂, ((P i).block b).role = .emi i₁ i₂ → emiTest i₁ i₂ = some false
  goto_apart : ∀ i b s test dest, s ∈ ((P i).block b).stms →
    ((P i).stm s).kind = .goto test dest → ∀ e ∈ (P i).chain ((P i).stm dest).parent,
    ((P i).block e).role.isEmi = true → e ∈ (P i).chain b
  never_run : ∀ main c, (kernel P main).Reachable c → ∀ t i s, (i, Loc.before s) ∈ c.threads t →
    ∀ e ∈ (P i).chain ((P i).stm s).parent, ((P i).block e).role.isEmi = false

end EMI

end CLSmith
