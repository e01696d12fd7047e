import CLSmith.Common.CString
import CLSmith.Options
import CLSmith.Random
/-!
# The header of a program

The geometry `InitRuntimeParameters` draws, with the two counters it
accumulates and the getters that read them, the first line of a program, in
which `OutputRuntimeInfo` leaves it for the launcher with the features the
program uses, and the parameters `OutputEntryFunction` gives its kernel. The
draws are a parameter: one that fails on an empty range tells whether the
source ever gives one.
-/

namespace CLSmith

namespace Launcher

open Common.CString

/-! ## Geometry -/

def maxThrPerDim : ℕ := 100

def maxThreads : ℕ := 10000

def maxThreadsPerGroup : ℕ := 256

def noDims : ℕ := 3

/-- The number of work items and of items in a group, in each dimension. -/
structure Geometry where
  globalDim : List ℕ
  localDim : List ℕ

/-- The loop of `get_divisors` from `i` on, with a bound on its rounds. -/
def divisorsFrom (val : ℕ) : ℕ → ℕ → List ℕ
  | 0, _ => []
  | rounds + 1, i =>
    if i * i < val then
      (if val % i = 0 then [i, val / i] else []) ++ divisorsFrom val rounds (i + 1)
    else if i * i = val then [i]
    else []

/-- **`get_divisors`.** One and the number itself come first, then each divisor with
its quotient; of one the list has two entries. -/
def getDivisors (val : ℕ) : List ℕ := 1 :: val :: divisorsFrom val val 2

/-- **What `InitRuntimeParameters` leaves**: the dimensions, and the numbers of
threads and of groups it counts. -/
structure Runtime extends Geometry where
  noThreads : ℕ
  noGroups : ℕ

section Draw

variable (draw : ℕ → Gen ℕ)

/-- The first loop, with `noThreads`. -/
def drawGlobal : ℕ → ℕ → Gen (List ℕ × ℕ)
  | 0, noThreads => pure ([], noThreads)
  | dims + 1, noThreads => do
    let r ← draw (min maxThrPerDim (maxThreads / noThreads))
    let (rest, n) ← drawGlobal dims (noThreads * (r + 1))
    return ((r + 1) :: rest, n)

/-- A round of the second loop, with `curr_thr_p_grp`. -/
def drawLocal : List ℕ → ℕ → Gen (List ℕ × ℕ)
  | [], currThrPGrp => pure ([], currThrPGrp)
  | dim :: dims, currThrPGrp => do
    let divisors := getDivisors dim
    let r ← draw divisors.length
    let d ← Gen.ofOption divisors[r]?
    let (rest, n) ← drawLocal dims (currThrPGrp * d)
    return (d :: rest, n)

/-- The second loop, with a bound on its rounds. -/
def drawGroup (globalDim : List ℕ) : ℕ → Gen (List ℕ)
  | 0 => Gen.ofOption none
  | rounds + 1 => do
    let (localDim, currThrPGrp) ← drawLocal draw globalDim 1
    if currThrPGrp > maxThreadsPerGroup then drawGroup globalDim rounds else pure localDim

/-- The last loop, over `noGroups`. -/
def countGroups : List ℕ → List ℕ → ℕ → ℕ
  | g :: globalDim, l :: localDim, noGroups => countGroups globalDim localDim (noGroups * (g / l))
  | _, _, noGroups => noGroups

/-- **`InitRuntimeParameters`**, counters included. The dimensions of a group are
drawn again from the start for as long as they make a group too large. -/
def initRuntime : Gen Runtime := fun tape => (do
  let (globalDim, noThreads) ← drawGlobal draw noDims 1
  let localDim ← drawGroup draw globalDim tape.length
  return ⟨⟨globalDim, localDim⟩, noThreads, countGroups globalDim localDim 1⟩ : Gen Runtime) tape

end Draw

namespace Runtime

variable (r : Runtime)

/-- `get_groups`. -/
def getGroups : ℕ := r.noGroups

/-- `get_total_threads`. -/
def getTotalThreads : ℕ := r.noThreads * r.noGroups

/-- `get_threads_per_group`. -/
def getThreadsPerGroup : ℕ := r.noThreads / r.noGroups

end Runtime

/-- `rnd_upto(n)`. -/
def rndAny (n : ℕ) : Gen ℕ := rndUpto n fun _ => false

/-- `rnd_upto(n)` where `n` may not be zero. -/
def rndSome (n : ℕ) : Gen ℕ := if n = 0 then Gen.ofOption none else rndAny n

/-- `InitAtomics`, of which the number of blocks is left. -/
def initAtomics : Gen ℕ := do
  let r ← rndUpto 99 fun _ => false
  return r + 1

/-- The blocks of a program that has none where atomics are off. -/
def noAtomicBlocks (o : CLOptions) : Gen ℕ := if o.atomics then initAtomics else pure 0

/-- What `goGenerator` draws before it prints the header. -/
def launchParameters (o : CLOptions) : Gen (Geometry × ℕ) := do
  let runtime ← initRuntime rndAny
  let blocks ← noAtomicBlocks o
  return (runtime.toGeometry, blocks)

/-! ## The first line -/

/-- The dimensions, with commas between them. -/
def dimsText : List ℕ → List Char
  | [] => []
  | [d] => decimal d
  | d :: dims => decimal d ++ ',' :: dimsText dims

/-- What is printed where an option is set. -/
def textIf (b : Bool) (s : List Char) : List Char := if b then s else []

/-- The line of **`OutputRuntimeInfo`**, but for its end. It is a comment to the
compiler, and the arguments of the launcher. -/
def runtimeInfo (o : CLOptions) (noAtomicBlocks : ℕ) (g : Geometry) : List Char :=
  "//".toList
    ++ textIf o.atomics (" --atomics ".toList ++ decimal noAtomicBlocks)
    ++ textIf o.atomicReductions " ---atomic_reductions".toList
    ++ textIf o.fakeDivergence " ---fake_divergence".toList
    ++ textIf o.interThreadComm " ---inter_thread_comm".toList
    ++ textIf o.emi " ---emi".toList
    ++ " -g ".toList ++ dimsText g.globalDim
    ++ " -l ".toList ++ dimsText g.localDim

/-! ## The kernel's parameters -/

/-- The element types of buffers. -/
inductive ClType
  | ulong | uint | int | long
deriving DecidableEq

/-- **A parameter** of the kernel. Which of them there are depends on the options. -/
inductive KernelParam
  | result | gAtomicInput | gSpecialValues | gAtomicReduction | emiInput | sequenceInput
  | gCommValues
deriving DecidableEq

namespace KernelParam

/-- A parameter as it is declared. -/
def decl : KernelParam → String
  | result => "__global ulong *result"
  | gAtomicInput => "__global volatile uint *g_atomic_input"
  | gSpecialValues => "__global volatile uint *g_special_values"
  | gAtomicReduction => "__global volatile int *g_atomic_reduction"
  | emiInput => "__global int *emi_input"
  | sequenceInput => "__global int *sequence_input"
  | gCommValues => "__global long *g_comm_values"

def elem : KernelParam → ClType
  | result => .ulong
  | gAtomicInput => .uint
  | gSpecialValues => .uint
  | gAtomicReduction => .int
  | emiInput => .int
  | sequenceInput => .int
  | gCommValues => .long

end KernelParam

/-- The first line of **`OutputEntryFunction`**. -/
def entryFunction (o : CLOptions) : List Char :=
  "__kernel void entry(__global ulong *result".toList
    ++ textIf o.atomics (", __global volatile uint *g_atomic_input".toList
      ++ ", __global volatile uint *g_special_values".toList)
    ++ textIf o.atomicReductions ", __global volatile int *g_atomic_reduction".toList
    ++ textIf o.emi ", __global int *emi_input".toList
    ++ textIf o.fakeDivergence ", __global int *sequence_input".toList
    ++ textIf o.interThreadComm ", __global long *g_comm_values".toList
    ++ ") \x7b".toList

/-- The parameters behind the first. -/
def moreParams (o : CLOptions) : List KernelParam :=
  (if o.atomics then [.gAtomicInput, .gSpecialValues] else [])
    ++ (if o.atomicReductions then [.gAtomicReduction] else [])
    ++ (if o.emi then [.emiInput] else [])
    ++ (if o.fakeDivergence then [.sequenceInput] else [])
    ++ (if o.interThreadComm then [.gCommValues] else [])

/-- **The parameters of the kernel**, in order: those that `entryFunction` prints. -/
def entryParams (o : CLOptions) : List KernelParam := .result :: moreParams o

/-- The signature lists the parameters. -/
theorem entryFunction_eq (o : CLOptions) :
    entryFunction o = "__kernel void entry(".toList ++ KernelParam.result.decl.toList
      ++ (moreParams o).flatMap (fun p => ", ".toList ++ p.decl.toList) ++ ") \x7b".toList := by
  have hparams : ∀ (b : Bool) (ps : List KernelParam),
      (if b then ps else []).flatMap (fun p => ", ".toList ++ p.decl.toList) =
        textIf b (ps.flatMap fun p => ", ".toList ++ p.decl.toList) := by
    intro b ps
    cases b <;> rfl
  unfold entryFunction moreParams
  simp only [List.flatMap_append, hparams, ← List.append_assoc]
  rfl

end Launcher

end CLSmith
