import CLSmith.Common.CInt
import CLSmith.Launcher.Header
/-!
# The launcher

`cl_launcher.c`: the arguments in the first line of a program, what `main`
makes of the dimensions, and the buffers `run_on_platform_device` binds to
the arguments of the kernel. What `parse_file_args` reads is what the
generator used, and the buffers are those of the kernel's parameters.
-/

namespace CLSmith

namespace Launcher

open Common.CString

/-! ## Arguments -/

/-- **The user input and the kernel parameters** among the globals of the launcher, as
`main` finds them. -/
structure Input where
  binarySize : ℤ := 0
  deviceIndex : ℤ := 0
  platformIndex : ℤ := 0
  deviceNameGiven : List Char := []
  includePath : List Char := ".".toList
  debugBuild : Bool := false
  disableOpts : Bool := false
  disableFake : Bool := false
  disableGroup : Bool := false
  disableAtomics : Bool := false
  outputBinary : Bool := false
  setDeviceFromName : Bool := false
  atomics : Bool := false
  atomicCounterNo : ℤ := 0
  atomicReductions : Bool := false
  emi : Bool := false
  fakeDivergence : Bool := false
  interThreadComm : Bool := false
  localDims : List Char := []
  globalDims : List Char := []
deriving DecidableEq

/-- The value of an option, which must be there to be read. -/
def withVal (val : Option (List Char)) (f : List Char → Input × ℕ) : Option (Input × ℕ) :=
  val.map f

/-- **`parse_arg`**, with the value it returns: one for an argument that is optional,
more for one that counts as required, and zero for one it does not know. -/
def parseArg (arg : List Char) (val : Option (List Char)) (s : Input) : Option (Input × ℕ) :=
  if arg = "-f".toList ∨ arg = "--filename".toList then some (s, 1)
  else if arg = "-a".toList ∨ arg = "--args".toList then some (s, 1)
  else if arg = "-d".toList ∨ arg = "--device_idx".toList then
    withVal val fun v => ({ s with deviceIndex := atoi v }, 2)
  else if arg = "-p".toList ∨ arg = "--platform_idx".toList then
    withVal val fun v => ({ s with platformIndex := atoi v }, 2)
  else if arg = "-b".toList ∨ arg = "--binary".toList then
    withVal val fun v => ({ s with binarySize := atoi v }, 1)
  else if arg = "-l".toList ∨ arg = "--locals".toList then
    withVal val fun v => ({ s with localDims := v }, 1)
  else if arg = "-g".toList ∨ arg = "--groups".toList then
    withVal val fun v => ({ s with globalDims := v }, 1)
  else if arg = "-n".toList ∨ arg = "--name".toList then
    withVal val fun v => ({ s with deviceNameGiven := v }, 3)
  else if arg = "-i".toList ∨ arg = "--include_path".toList then
    withVal val fun v =>
      ({ s with includePath := v.map fun c => if c = '\\' then '/' else c }, 1)
  else if arg = "--atomics".toList then
    withVal val fun v => ({ s with atomics := true, atomicCounterNo := atoi v }, 1)
  else if arg = "---set_device_from_name".toList then some ({ s with setDeviceFromName := true }, 1)
  else if arg = "---atomic_reductions".toList then some ({ s with atomicReductions := true }, 1)
  else if arg = "---emi".toList then some ({ s with emi := true }, 1)
  else if arg = "---fake_divergence".toList then some ({ s with fakeDivergence := true }, 1)
  else if arg = "---inter_thread_comm".toList then some ({ s with interThreadComm := true }, 1)
  else if arg = "---debug".toList then some ({ s with debugBuild := true }, 1)
  else if arg = "---bin".toList then some ({ s with outputBinary := true }, 1)
  else if arg = "---disable_opts".toList then some ({ s with disableOpts := true }, 1)
  else if arg = "---disable_fake".toList then some ({ s with disableFake := true }, 1)
  else if arg = "---disable_group".toList then some ({ s with disableGroup := true }, 1)
  else if arg = "---disable_atomics".toList then some ({ s with disableAtomics := true }, 1)
  else some (s, 0)

/-- The loop of `parse_file_args` over the words of the line. -/
def parseTokens : List (List Char) → Input → Option Input
  | [], s => some s
  | tok :: toks, s =>
    if "---".toList.isPrefixOf tok then do
      let (s, _) ← parseArg tok none s
      parseTokens toks s
    else if "-".toList.isPrefixOf tok then
      match toks with
      | [] => do
        let (s, _) ← parseArg tok none s
        return s
      | val :: toks => do
        let (s, _) ← parseArg tok (some val) s
        parseTokens toks s
    else parseTokens toks s

/-- **`parse_file_args`** of a file that could be opened. Only the first line is read,
and only if it is a comment. -/
def parseFileArgs (source : List Char) (s : Input) : Option Input :=
  let argBuf := cutNewline (fgets 128 source)
  if "//".toList.isPrefixOf argBuf then parseTokens (tokens ' ' argBuf) s else some s

/-! ## Dimensions -/

def defLocalSize : ℤ := 32

def defGlobalSize : ℤ := 1024

namespace Dimensions

open Common

/-- `size_t` of the host. -/
def sizeT : IntTy := ⟨false, .w64⟩

/-- `(size_t) atoi(tok)`: the number as a `long`, cut to an `int`. -/
def toSize (tok : List Char) : ℕ :=
  let long : IntTy := ⟨true, .w64⟩
  (sizeT.wrap (IntTy.int.wrap (max long.minVal (min long.maxVal (atoi tok))))).toNat

/-- **A size array**: how long it is, and the entries that were set. The rest of it is
not initialised. -/
structure Sizes where
  dim : ℕ
  entries : List ℕ

/-- The array read from an argument. -/
def parse (dims : List Char) (dflt : ℕ) : Sizes :=
  if dims = [] then ⟨1, [dflt]⟩ else ⟨1 + dims.count ',', (tokens ',' dims).map toSize⟩

end Dimensions

/-! ## Kernel arguments -/

/-- The buffers `run_on_platform_device` makes; each is bound to one parameter of the
kernel. -/
inductive BufferName
  | result | atomicInput | specialValues | atomicReductionVars | emiInput | seqInput | interThread
deriving DecidableEq

/-- **A buffer**, with the type and the number of its elements. What it is filled with
before the launch is not modelled. -/
structure Buffer where
  name : BufferName
  elem : ClType
  count : ℤ

/-- The next free index, and the calls of `clSetKernelArg` so far. -/
abbrev ArgState := ℕ × List (ℕ × Buffer)

/-- `clSetKernelArg(kernel, kernel_arg++, ..)`. -/
def setKernelArg (b : Buffer) (a : ArgState) : ArgState := (a.1 + 1, a.2 ++ [(a.1, b)])

/-- **The calls of `clSetKernelArg`** in `run_on_platform_device`. The index of an
argument is the number of calls before it, so the order is what has to agree with the
kernel. -/
def setKernelArgs (s : Input) (globalSize localSize : List ℤ) : ArgState :=
  let totalThreads := globalSize.prod
  let noGroups := (List.zipWith (· / ·) globalSize localSize).prod
  let totalCounters := s.atomicCounterNo * noGroups
  let maxDimen := globalSize.foldl max 0
  let a := setKernelArg ⟨.result, .ulong, totalThreads⟩ (0, [])
  let a := if s.atomics then
      setKernelArg ⟨.specialValues, .uint, totalCounters⟩
        (setKernelArg ⟨.atomicInput, .uint, totalCounters⟩ a)
    else a
  let a := if s.atomicReductions then setKernelArg ⟨.atomicReductionVars, .int, noGroups⟩ a else a
  let a := if s.emi then setKernelArg ⟨.emiInput, .int, 1024⟩ a else a
  let a := if s.fakeDivergence then setKernelArg ⟨.seqInput, .int, maxDimen⟩ a else a
  if s.interThreadComm then setKernelArg ⟨.interThread, .long, totalThreads⟩ a else a

/-- The buffer that is meant for a parameter. -/
def KernelParam.buffer : KernelParam → BufferName
  | result => .result
  | gAtomicInput => .atomicInput
  | gSpecialValues => .specialValues
  | gAtomicReduction => .atomicReductionVars
  | emiInput => .emiInput
  | sequenceInput => .seqInput
  | gCommValues => .interThread

end Launcher

end CLSmith
