import CLSmith.Probabilities
import CLSmith.Random
import CLSmith.StringUtils
/-!
# Delta reduction

A run of the generator can leave the numbers it has drawn in a file, and a
later one can take them from there: all of them, or, to reduce a program, as
many as a random point says and fresh ones from then on. The program is what
it makes of the numbers: each is asked for after those before it.

Filters do not draw, and coins are thrown without one, so as long as no filter
has rejected a number `filter_depth_` is zero whenever
`switch_to_default_generator` looks at it.
-/

namespace CLSmith

namespace Delta

open Common CString StdString

/-! ## What is asked for -/

/-- **One number**: of `rnd_upto` or of `rnd_flipcoin`. A filter belongs to the first
only, and is called again for as long as it turns the number down. -/
inductive Choice
  | upto (n : ℕ) (f : Option (ℕ → Bool))
  | flipcoin (p : ℕ)

namespace Choice

/-- The bound `add_number` is called with. -/
def bound : Choice → ℕ
  | upto n _ => n
  | flipcoin _ => 2

/-- `f->filter(v)`. -/
def rejects : Choice → ℕ → Bool
  | upto _ (some f), v => f v
  | _, _ => false

/-- The number `DefaultRndNumGenerator` draws; a bound of zero and a probability
above a hundred are errors. -/
def draw : Choice → Tape → Option (ℕ × Tape)
  | upto n f, tape => if n = 0 then none else rndUpto n (upto n f).rejects tape
  | flipcoin p, tape =>
    if p ≤ 100 then (rndFlipcoin p tape).map fun x => (x.1.toNat, x.2) else none

/-- A coin that always falls on one side falls on that. -/
def Possible : Choice → ℕ → Prop
  | flipcoin p, v => p ≤ 100 ∧ (v = 0 → p < 100) ∧ (v = 1 → 0 < p)
  | _, _ => True

end Choice

/-- **The digits** of `RandomHexDigits` or of `RandomDigits`. Both look a number up in
a table with one place more than there are digits. -/
inductive Digits
  | hex
  | dec

namespace Digits

/-- The bound of each number. -/
def bound : Digits → ℕ
  | hex => 16
  | dec => 10

/-- `hex1` and `dec1`, each with the null that ends it. -/
def table : Digits → List Char
  | hex => "0123456789ABCDEF".toList ++ ['\x00']
  | dec => "0123456789".toList ++ ['\x00']

end Digits

/-- **What a program is made of**: the numbers it asks for, and the strings of
digits, of which each is asked for as a whole. -/
inductive Program (α : Type)
  | done (a : α)
  | choose (c : Choice) (next : ℕ → Program α)
  | digits (d : Digits) (num : ℕ) (next : List Char → Program α)

variable {α : Type}

/-! ## The sequence -/

/-- `SimpleDeltaSequence::ValuePair`: a number, and the bound it was drawn below,
which is one line of the file. -/
structure ValuePair where
  value : ℕ
  bound : ℕ
deriving DecidableEq

/-- `seq_map_`, in the order of its keys. -/
abbrev SeqMap := List (ℕ × ValuePair)

/-- `add_number`. -/
def SeqMap.addNumber (k : ℕ) (p : ValuePair) : SeqMap → SeqMap
  | [] => [(k, p)]
  | e :: m =>
    if k < e.1 then (k, p) :: e :: m
    else if k = e.1 then (k, p) :: m
    else e :: addNumber k p m

/-- `default_sep_char`. -/
def sepChar : Char := ','

/-- `output_one`. -/
def outputOne (p : ValuePair) : List Char :=
  decimal p.value ++ sepChar :: (decimal p.bound ++ ['\n'])

/-- **`get_sequence`**; there must be a number. The entries are written one after the
other, in the order of their keys. -/
def SeqMap.getSequence (m : SeqMap) : Option (List Char) :=
  if m = [] then none else some (m.flatMap fun e => outputOne e.2)

/-- `SequenceLineParser::str2int`: `ss >> i` leaves `-1` where there is nothing
to read, and an `int` otherwise. -/
def str2int (s : List Char) : ℤ :=
  if s.dropWhile CString.isSpace = [] then -1 else max (-2 ^ 31) (min (2 ^ 31 - 1) (atoi s))

/-- A number, if it is not negative. -/
def number (s : List Char) : Option ℕ := if str2int s < 0 then none else some (str2int s).toNat

/-- The loop of `parse_sequence`, as far as the fuel goes. -/
def parseFrom (s : List Char) (sep : Char) : ℕ → ℕ → Option (List ℕ)
  | 0, _ => none
  | n + 1, pos =>
    let startPos := pos + ((s.drop pos).takeWhile (· == ' ')).length
    match find s sep startPos with
    | none => do
      let i ← number (← substr s startPos)
      some [i]
    | some pos => do
      let i ← number (← substrLen s startPos (pos - startPos))
      let v ← parseFrom s sep n (pos + 1)
      some (i :: v)

/-- **`parse_sequence`.** The pieces between the separators are read as numbers; a
negative one, and so an empty piece, is an error. -/
def parseSequence (s : List Char) (sep : Char) : Option (List ℕ) :=
  parseFrom s sep (s.length + 1) 0

/-- The loop of `init_sequence`, with its assertions. -/
def initLines : List (List Char) → Option (List ValuePair)
  | [] => some []
  | line :: ls =>
    if StringUtils.emptyLine line then initLines ls
    else do
      let v ← parseSequence line sepChar
      if v.length = 2 then some (⟨v.getD 0 0, v.getD 1 0⟩ :: (← initLines ls)) else none

/-- **`init_sequence`** on the text of the file. Empty lines are passed over, and each
other line has to hold two numbers. -/
def initSequence (text : List Char) : Option (List ValuePair) :=
  initLines (Probabilities.lines text)

/-! ## The generators -/

/-- **`DefaultRndNumGenerator`**, with `seq_map_` of the sequence it adds to. The tape
holds what the machine's generator still has to give. -/
structure DefaultRndNumGenerator where
  tape : Tape
  randDepth : ℕ := 0
  seqMap : SeqMap := []

namespace DefaultRndNumGenerator

/-- `add_number` of a number drawn, while `DeltaMonitor::is_running()`. -/
def add (g : DefaultRndNumGenerator) (tape : Tape) (v bound : ℕ) : DefaultRndNumGenerator :=
  ⟨tape, g.randDepth + 1, g.seqMap.addNumber g.randDepth ⟨v, bound⟩⟩

/-- `rnd_upto` and `rnd_flipcoin`. -/
def choose (g : DefaultRndNumGenerator) (c : Choice) : Option (ℕ × DefaultRndNumGenerator) :=
  (c.draw g.tape).map fun x => (x.1, g.add x.2 x.1 c.bound)

/-- **`RandomHexDigits(num)` and `RandomDigits(num)`.** The digits are drawn in a row
by the one generator, and each is recorded as a number of its own. -/
def randomDigits (d : Digits) : ℕ → DefaultRndNumGenerator →
    Option (List Char × DefaultRndNumGenerator)
  | 0, g => some ([], g)
  | num + 1, g => do
    let (x, tape) ← rndUpto d.bound (fun _ => false) g.tape
    let ch ← d.table[x]?
    let (str, g) ← randomDigits d num (g.add tape x d.bound)
    some (ch :: str, g)

end DefaultRndNumGenerator

/-- **`SimpleDeltaRndNumGenerator`**, with the sequence it reads. From the random
point on it is not asked any more, unless reduction is off. -/
structure SimpleDeltaRndNumGenerator where
  sequence : List ValuePair
  randomPoint : ℕ
  noDeltaReduction : Bool
  currentPos : ℕ := 0
  randDepth : ℕ := 0
  seqMap : SeqMap := []

/-- **`random_choice`** up to its switch, with the assertions of `get_number`. It
fails on a filter error as well: the error stays set, and what is written after
it is marked as the outcome of an error. -/
def SimpleDeltaRndNumGenerator.randomChoice (g : SimpleDeltaRndNumGenerator) (bound : ℕ)
    (rejects : ℕ → Bool) : Option (ℕ × SimpleDeltaRndNumGenerator) :=
  match g.sequence[g.currentPos]? with
  | none => none
  | some p =>
    if bound = p.bound ∧ rejects p.value = false then
      some (p.value, { g with
        seqMap := g.seqMap.addNumber g.currentPos p
        currentPos := g.currentPos + 1
        randDepth := g.randDepth + 1 })
    else none

/-- **`RandomNumber`**: the current generator. A tape waits for the default one,
which seeds again. -/
inductive RandomNumber
  | default (g : DefaultRndNumGenerator)
  | simpleDelta (g : SimpleDeltaRndNumGenerator) (tape : Tape)

namespace SimpleDeltaRndNumGenerator

/-- `switch_to_default_generator`: the generator that is the current one then. -/
def switchToDefaultGenerator (g : SimpleDeltaRndNumGenerator) (tape : Tape) : RandomNumber :=
  if g.noDeltaReduction = true ∨ g.randDepth < g.randomPoint then .simpleDelta g tape
  else .default ⟨tape, g.randDepth, g.seqMap⟩

/-- `rnd_upto` and `rnd_flipcoin`, which assert that the number is below its bound. -/
def choose (g : SimpleDeltaRndNumGenerator) (tape : Tape) (c : Choice) :
    Option (ℕ × RandomNumber) := do
  let (x, g) ← g.randomChoice c.bound c.rejects
  if x < c.bound then some (x, g.switchToDefaultGenerator tape) else none

/-- **`RandomHexDigits(num)` and `RandomDigits(num)`**, and the generator `r` that is
the current one afterwards. The loop is this generator's own: it reads on in the
file when another one has become the current one. No number is asserted to be below
its bound, and one past the end of the table has no meaning. -/
def randomDigits (d : Digits) (tape : Tape) : ℕ → SimpleDeltaRndNumGenerator → RandomNumber →
    Option (List Char × RandomNumber)
  | 0, _, r => some ([], r)
  | num + 1, g, _ => do
    let (x, g) ← g.randomChoice d.bound fun _ => false
    let ch ← d.table[x]?
    let (str, r) ← randomDigits d tape num g (g.switchToDefaultGenerator tape)
    some (ch :: str, r)

end SimpleDeltaRndNumGenerator

namespace RandomNumber

/-- One number of the current generator. -/
def choose : RandomNumber → Choice → Option (ℕ × RandomNumber)
  | default g, c => (g.choose c).map fun x => (x.1, .default x.2)
  | simpleDelta g tape, c => g.choose tape c

/-- A string of digits of the current generator. -/
def randomDigits : RandomNumber → Digits → ℕ → Option (List Char × RandomNumber)
  | default g, d, num => (g.randomDigits d num).map fun x => (x.1, .default x.2)
  | simpleDelta g tape, d, num => g.randomDigits d tape num (.simpleDelta g tape)

/-- `seq_map_`: there is one sequence for both generators. -/
def seqMap : RandomNumber → SeqMap
  | default g => g.seqMap
  | simpleDelta g _ => g.seqMap

/-- `DeltaMonitor::CreateRndNumInstance` with the text of the input file; the
sequence of a file without numbers has no random point. -/
def createDelta (text : List Char) (noDeltaReduction : Bool) (x : ℕ) (tape : Tape) :
    Option RandomNumber := do
  let seq ← initSequence text
  if seq = [] then none
  else some (.simpleDelta ⟨seq, x % seq.length, noDeltaReduction, 0, 0, []⟩ tape)

/-- A program made. -/
def run : Program α → RandomNumber → Option (α × RandomNumber)
  | .done a, r => some (a, r)
  | .choose c next, r =>
    match r.choose c with
    | none => none
    | some x => run (next x.1) x.2
  | .digits d num next, r =>
    match r.randomDigits d num with
    | none => none
    | some x => run (next x.1) x.2

/-- A program made, and the file `DeltaMonitor::Output` writes. -/
def output (P : Program α) (r : RandomNumber) : Option (α × List Char) :=
  (r.run P).bind fun x => x.2.seqMap.getSequence.map fun text => (x.1, text)

end RandomNumber

/-- **A run with `--delta-monitor`.** The numbers are drawn as ever, and the file is
written once the program is. -/
def record (P : Program α) (tape : Tape) : Option (α × List Char) :=
  (RandomNumber.default ⟨tape, 0, []⟩).output P

/-- **A run with `--go-delta`** on the text of a file, perhaps with
`--no-delta-reduction`; `x` is the number for the random point. -/
def replay (P : Program α) (text : List Char) (noDeltaReduction : Bool) (x : ℕ) (tape : Tape) :
    Option (α × List Char) :=
  (RandomNumber.createDelta text noDeltaReduction x tape).bind fun r => r.output P

end Delta

end CLSmith
