import CLSmith.Random
import Mathlib.Algebra.Ring.Parity
import Mathlib.Logic.Lemmas
/-!
# Selecting a built-in function

`FunctionInvocationIntegerBuiltIn::FunctionSelector`: an OpenCL integer
function for a result of a given type, and the types of its parameters,
which `ConvertParameterType` makes of that type. Some parameters come in
pairs: for the first a coin is flipped and kept in a static variable, the
second takes it from there.
-/

namespace CLSmith

namespace BuiltIn

/-- `eSimpleType`. -/
inductive SimpleType
  | eVoid | eChar | eShort | eInt | eLong | eLongLong
  | eUChar | eUShort | eUInt | eULong | eULongLong
deriving DecidableEq

namespace SimpleType

def isSigned : SimpleType → Bool
  | eUChar | eUShort | eUInt | eULong | eULongLong => false
  | _ => true

def toUnsigned : SimpleType → Option SimpleType
  | eVoid => none
  | eChar => eUChar
  | eShort => eUShort
  | eInt => eUInt
  | eLong => eULong
  | eLongLong => eULongLong
  | s => s

def toSigned : SimpleType → Option SimpleType
  | eVoid => none
  | eUChar => eChar
  | eUShort => eShort
  | eUInt => eInt
  | eULong => eLong
  | eULongLong => eLongLong
  | s => s

def sizeInBytes : SimpleType → ℕ
  | eVoid => 0
  | eChar | eUChar => 1
  | eShort | eUShort => 2
  | eInt | eUInt | eLong | eULong => 4
  | eLongLong | eULongLong => 8

/-- The enumerator before; before the first there is none. -/
def pred : SimpleType → SimpleType
  | eVoid | eChar => eVoid
  | eShort => eChar
  | eInt => eShort
  | eLong => eInt
  | eLongLong => eLong
  | eUChar => eLongLong
  | eUShort => eUChar
  | eUInt => eUShort
  | eULong => eUInt
  | eULongLong => eULong

end SimpleType

/-- The types a built-in function meets: `eSimple`, `eVector`, or another. -/
inductive Ty
  | simple (s : SimpleType)
  | vector (s : SimpleType) (length : ℕ)
  | other
deriving DecidableEq

namespace Ty

def isSimple : Ty → Bool
  | simple _ => true
  | _ => false

def isSigned : Ty → Bool
  | simple s => s.isSigned
  | vector s _ => s.isSigned
  | other => false

/-- `to_unsigned`: an unsigned type is returned itself, of a signed one the
simple type. -/
def toUnsigned : Ty → Option Ty
  | simple s => s.toUnsigned.map simple
  | vector s n => if s.isSigned then s.toUnsigned.map simple else some (vector s n)
  | other => none

def toSigned : Ty → Option Ty
  | simple s => s.toSigned.map simple
  | vector s n => if s.isSigned then some (vector s n) else s.toSigned.map simple
  | other => none

/-- `DemoteVectorTypeToType`. -/
def demote : Ty → Ty
  | vector s _ => simple s
  | t => t

/-- The promotion at the end of `ConvertParameterType`. -/
def repromote (type t : Ty) : Ty :=
  match type, t with
  | vector _ n, simple s => vector s n
  | _, t => t

/-- `ConvertParameterType` with `kFlipSign`. -/
def flipSign (type : Ty) : Option Ty :=
  (if type.isSigned then type.toUnsigned else type.toSigned).map type.repromote

/-- `kNarrow`: `int` is passed over, as `long` is of its size. -/
def narrow : Ty → Option Ty
  | simple s => some (simple (narrowSimple s))
  | vector s n => some (vector (narrowSimple s) n)
  | other => none
where
  narrowSimple (s : SimpleType) : SimpleType :=
    let simple := if 1 < s.sizeInBytes then s.pred else s
    if simple = .eInt ∨ simple = .eUInt then simple.pred else simple

end Ty

/-- `TypeConversion`. -/
inductive TypeConversion
  | kExact | kUnsignToSign | kSignToUnsign | kFlipSign | kFlipSignChance | kFlipSignChance2
  | kDemote | kDemoteChance | kDemoteChance2 | kPromote | kNarrow | kFlipNarrow | kToUnsignNarrow
deriving DecidableEq

/-- The static variables `flip_next` and `demote_next`: the choice pending
for the second of a pair, `0` when there is none. -/
structure Pending where
  flipNext : ℤ := 0
  demoteNext : ℤ := 0
deriving DecidableEq

/-- `kSizes`. -/
def kSizes : List ℕ := [2, 4, 8, 16]

/-- The choice for one of a pair: the pending one, or a new one. -/
def nextChoice (n : ℤ) : Gen ℤ :=
  if n = 0 then do
    let b ← rndFlipcoin 50
    return if b then 1 else -1
  else return n

/-- **`ConvertParameterType`**, with the statics before and after. The two kinds of a
chance come in pairs: the first takes a coin and leaves it, the second takes what the
first has left. -/
def convertParameterType (type : Ty) (conversion : TypeConversion) (p : Pending) :
    Gen (Ty × Pending) :=
  if type = .other then Gen.ofOption none
  else match conversion with
    | .kExact => return (type, p)
    | .kUnsignToSign => do
      let t ← Gen.ofOption type.toSigned
      return (type.repromote t, p)
    | .kSignToUnsign => do
      let t ← Gen.ofOption type.toUnsigned
      return (type.repromote t, p)
    | .kFlipSign => do
      let t ← Gen.ofOption type.flipSign
      return (t, p)
    | .kFlipSignChance => do
      if ← rndFlipcoin 50 then do
        let t ← Gen.ofOption type.flipSign
        return (t, p)
      else return (type, p)
    | .kFlipSignChance2 => do
      let resetFlipNext := decide (p.flipNext ≠ 0)
      let flipNext ← nextChoice p.flipNext
      let t ← Gen.ofOption (if flipNext = 1 then type.flipSign else some type)
      return (t, { p with flipNext := if resetFlipNext then 0 else flipNext })
    | .kDemote => return (type.demote, p)
    | .kDemoteChance => do
      let b ← rndFlipcoin 50
      return (if b then type.demote else type, p)
    | .kDemoteChance2 => do
      let resetDemoteNext := decide (p.demoteNext ≠ 0)
      let demoteNext ← nextChoice p.demoteNext
      return (if demoteNext = 1 then type.demote else type,
        { p with demoteNext := if resetDemoteNext then 0 else demoteNext })
    | .kPromote => do
      let idx ← rndUpto kSizes.length fun _ => false
      let size ← Gen.ofOption kSizes[idx]?
      return ((match type with | .simple s => .vector s size | t => t), p)
    | .kNarrow => do
      let t ← Gen.ofOption type.narrow
      return (t, p)
    | .kFlipNarrow => do
      let t ← Gen.ofOption (type.flipSign.bind Ty.narrow)
      return (t, p)
    | .kToUnsignNarrow => do
      let t ← Gen.ofOption ((type.toUnsigned.map type.repromote).bind Ty.narrow)
      return (t, p)

/-- Conversions one after the other. -/
def convertAll : List (Ty × TypeConversion) → Pending → Gen (List Ty × Pending)
  | [], p => return ([], p)
  | c :: cs, p => do
    let (t, p) ← convertParameterType c.1 c.2 p
    let (ts, p) ← convertAll cs p
    return (t :: ts, p)

/-- `BuiltIn`, the OpenCL integer functions. `kIdentity` is a sentinel, and stands for
a type without functions. -/
inductive Func
  | kIdentity | kAbs | kAbsDiff | kAddSat | kHAdd | kRHAdd | kClamp | kClz | kCtz | kMadHi
  | kMadSat | kMax | kMin | kMulHi | kRotate | kSubSat | kUpSample | kPopCount | kMad24 | kMul24
deriving DecidableEq

namespace Func

/-- The enumerators in order: a function's key is its place. -/
def all : List Func :=
  [kIdentity, kAbs, kAbsDiff, kAddSat, kHAdd, kRHAdd, kClamp, kClz, kCtz, kMadHi, kMadSat, kMax,
    kMin, kMulHi, kRotate, kSubSat, kUpSample, kPopCount, kMad24, kMul24]

def key (f : Func) : ℕ := all.idxOf f

/-- `integer_param_map`. -/
def params : Func → List TypeConversion
  | kIdentity => [.kExact]
  | kAbs => [.kFlipSignChance]
  | kAbsDiff => [.kFlipSignChance2, .kFlipSignChance2]
  | kAddSat => [.kExact, .kExact]
  | kHAdd => [.kExact, .kExact]
  | kRHAdd => [.kExact, .kExact]
  | kClamp => [.kExact, .kDemoteChance2, .kDemoteChance2]
  | kClz => [.kExact]
  | kCtz => [.kExact]
  | kMadHi => [.kExact, .kExact, .kExact]
  | kMadSat => [.kExact, .kExact, .kExact]
  | kMax => [.kExact, .kDemoteChance]
  | kMin => [.kExact, .kDemoteChance]
  | kMulHi => [.kExact, .kExact]
  | kRotate => [.kExact, .kExact]
  | kSubSat => [.kExact, .kExact]
  | kUpSample => [.kNarrow, .kToUnsignNarrow]
  | kPopCount => [.kExact]
  | kMad24 => [.kExact, .kExact, .kExact]
  | kMul24 => [.kExact, .kExact]

end Func

/-- `integer_func_table`. -/
def integerFuncTable : DistributionTable :=
  Func.all.tail.foldl (fun d f => d.addEntry f.key 10) {}

/-- The simple type under a type; `eVoid` stands for a type that has none. -/
def Ty.simpleType : Ty → SimpleType
  | simple s => s
  | vector s _ => s
  | other => .eVoid

/-- The functions not to be drawn for a type. -/
def Ty.filter (type : Ty) : VectorFilter :=
  let filter := (VectorFilter.mk integerFuncTable []).add Func.kCtz.key |>.add Func.kPopCount.key
  let filter :=
    if type.isSigned then filter.add Func.kAbs.key |>.add Func.kAbsDiff.key else filter
  let filter :=
    if type.simpleType = .eChar ∨ type.simpleType = .eUChar then filter.add Func.kUpSample.key
    else filter
  if type.simpleType ≠ .eInt ∧ type.simpleType ≠ .eUInt then
    filter.add Func.kMad24.key |>.add Func.kMul24.key
  else filter

/-- **`FunctionSelector`**: the function and the types of its parameters. The draw is
one of the table that the filters leave for the type; each parameter is then converted
in turn. -/
def functionSelector (type : Ty) (p : Pending) : Gen (Func × List Ty × Pending) :=
  if type = .other then return (.kIdentity, [type], p)
  else do
    let rnd ← rndUpto type.filter.getMaxProb type.filter.filter
    let key ← Gen.ofOption (type.filter.lookup rnd)
    let func ← Gen.ofOption Func.all[key]?
    let (types, p) ← convertAll (func.params.map fun c => (type, c)) p
    return (func, types, p)

/-! ## The pending choices -/

section Convert

variable {type T : Ty} {c : TypeConversion} {p q : Pending} {t t' : Tape}
    {cs : List (Ty × TypeConversion)}
  {Ts : List Ty}

/-- The coin the next number of the tape shows. -/
def coin (t : Tape) : Bool := decide (t.headD 0 % 100 < 50)

theorem rndFlipcoin_eq_some {b : Bool} : rndFlipcoin 50 t = some (b, t') ↔
    ∃ x, t = x :: t' ∧ b = coin t := by
  cases t with
  | nil => simp [rndFlipcoin]
  | cons x xs =>
    simp only [rndFlipcoin, coin, List.headD_cons, Option.some.injEq, Prod.mk.injEq,
      List.cons.injEq]
    constructor
    · rintro ⟨rfl, rfl⟩
      exact ⟨x, ⟨rfl, rfl⟩, rfl⟩
    · rintro ⟨x, ⟨rfl, rfl⟩, rfl⟩
      exact ⟨rfl, rfl⟩

theorem nextChoice_zero {n : ℤ} (h : nextChoice 0 t = some (n, t')) :
    (∃ x, t = x :: t') ∧ n = if coin t then 1 else -1 := by
  obtain ⟨b, t₁, hb, h⟩ := Gen.bind_eq_some.mp h
  obtain ⟨x, rfl, rfl⟩ := rndFlipcoin_eq_some.mp hb
  cases h
  exact ⟨⟨x, rfl⟩, rfl⟩

theorem nextChoice_of_ne {m n : ℤ} (hm : m ≠ 0) (h : nextChoice m t = some (n, t')) :
    t' = t ∧ n = m := by
  rw [nextChoice, if_neg hm] at h
  cases h
  exact ⟨rfl, rfl⟩

/-- The sign a choice comes to. -/
theorem convert_flip2 (h : convertParameterType type .kFlipSignChance2 p t = some ((T, q), t')) :
    ∃ n, nextChoice p.flipNext t = some (n, t') ∧
      q = { p with flipNext := if p.flipNext ≠ 0 then 0 else n } ∧
      (if n = 1 then type.flipSign else some type) = some T := by
  unfold convertParameterType at h
  split at h
  · cases h
  obtain ⟨n, t₁, hn, h⟩ := Gen.bind_eq_some.mp h
  obtain ⟨T', t₂, hT, h⟩ := Gen.bind_eq_some.mp h
  obtain ⟨hflip, rfl⟩ := Gen.ofOption_eq_some.mp hT
  cases h
  exact ⟨n, hn, by simp, hflip⟩

/-- **The first of a pair of signs** takes a coin and leaves it pending. -/
theorem convert_flip_first (hp : p.flipNext = 0)
    (h : convertParameterType type .kFlipSignChance2 p t = some ((T, q), t')) :
    (∃ x, t = x :: t') ∧ q = { p with flipNext := if coin t then 1 else -1 } ∧
      (if coin t then type.flipSign else some type) = some T := by
  obtain ⟨n, hn, rfl, hT⟩ := convert_flip2 h
  rw [hp] at hn
  obtain ⟨hx, rfl⟩ := nextChoice_zero hn
  refine ⟨hx, by simp [hp], ?_⟩
  cases hc : coin t <;> simpa [hc] using hT

/-- **The second of a pair of signs** takes the pending choice away. -/
theorem convert_flip_second (hp : p.flipNext ≠ 0)
    (h : convertParameterType type .kFlipSignChance2 p t = some ((T, q), t')) :
    t' = t ∧ q = { p with flipNext := 0 } ∧
      (if p.flipNext = 1 then type.flipSign else some type) = some T := by
  obtain ⟨n, hn, rfl, hT⟩ := convert_flip2 h
  obtain ⟨rfl, rfl⟩ := nextChoice_of_ne hp hn
  exact ⟨rfl, by simp [hp], hT⟩

theorem convert_demote2 (h : convertParameterType type .kDemoteChance2 p t = some ((T, q), t')) :
    ∃ n, nextChoice p.demoteNext t = some (n, t') ∧
      q = { p with demoteNext := if p.demoteNext ≠ 0 then 0 else n } ∧
      T = if n = 1 then type.demote else type := by
  unfold convertParameterType at h
  split at h
  · cases h
  obtain ⟨n, t₁, hn, h⟩ := Gen.bind_eq_some.mp h
  cases h
  exact ⟨n, hn, by simp, rfl⟩

/-- The first of a pair of demotions. -/
theorem convert_demote_first (hp : p.demoteNext = 0)
    (h : convertParameterType type .kDemoteChance2 p t = some ((T, q), t')) :
    (∃ x, t = x :: t') ∧ q = { p with demoteNext := if coin t then 1 else -1 } ∧
      T = if coin t then type.demote else type := by
  obtain ⟨n, hn, rfl, rfl⟩ := convert_demote2 h
  rw [hp] at hn
  obtain ⟨hx, rfl⟩ := nextChoice_zero hn
  refine ⟨hx, by simp [hp], ?_⟩
  cases coin t <;> simp

/-- The second. -/
theorem convert_demote_second (hp : p.demoteNext ≠ 0)
    (h : convertParameterType type .kDemoteChance2 p t = some ((T, q), t')) :
    t' = t ∧ q = { p with demoteNext := 0 } ∧
      T = if p.demoteNext = 1 then type.demote else type := by
  obtain ⟨n, hn, rfl, rfl⟩ := convert_demote2 h
  obtain ⟨rfl, rfl⟩ := nextChoice_of_ne hp hn
  exact ⟨rfl, by simp [hp], rfl⟩

/-- How many numbers of the tape a conversion takes, where none is pending
to it. -/
def TypeConversion.draws : TypeConversion → ℕ
  | .kFlipSignChance | .kDemoteChance | .kPromote => 1
  | _ => 0

/-- **Every other conversion** leaves the pending choices alone. -/
theorem convert_other (hflip : c ≠ .kFlipSignChance2) (hdemote : c ≠ .kDemoteChance2)
    (h : convertParameterType type c p t = some ((T, q), t')) :
    q = p ∧ t' = t.drop c.draws := by
  unfold convertParameterType at h
  split at h
  · cases h
  cases c with
  | kFlipSignChance2 => exact absurd rfl hflip
  | kDemoteChance2 => exact absurd rfl hdemote
  | kExact | kDemote =>
    cases h
    exact ⟨rfl, rfl⟩
  | kUnsignToSign | kSignToUnsign | kFlipSign | kNarrow | kFlipNarrow | kToUnsignNarrow =>
    obtain ⟨T', t₁, hT, h⟩ := Gen.bind_eq_some.mp h
    obtain ⟨-, rfl⟩ := Gen.ofOption_eq_some.mp hT
    cases h
    exact ⟨rfl, rfl⟩
  | kFlipSignChance =>
    obtain ⟨b, t₁, hb, h⟩ := Gen.bind_eq_some.mp h
    obtain ⟨x, rfl, -⟩ := rndFlipcoin_eq_some.mp hb
    cases b with
    | false =>
      cases h
      exact ⟨rfl, rfl⟩
    | true =>
      obtain ⟨T', t₂, hT, h⟩ := Gen.bind_eq_some.mp h
      obtain ⟨-, rfl⟩ := Gen.ofOption_eq_some.mp hT
      cases h
      exact ⟨rfl, rfl⟩
  | kDemoteChance =>
    obtain ⟨b, t₁, hb, h⟩ := Gen.bind_eq_some.mp h
    obtain ⟨x, rfl, -⟩ := rndFlipcoin_eq_some.mp hb
    cases h
    exact ⟨rfl, rfl⟩
  -- an index is drawn, whatever becomes of it
  | kPromote =>
    obtain ⟨idx, t₁, hidx, h⟩ := Gen.bind_eq_some.mp h
    obtain ⟨n, t₂, hn, h⟩ := Gen.bind_eq_some.mp h
    obtain ⟨-, rfl⟩ := Gen.ofOption_eq_some.mp hn
    cases h
    cases t with
    | nil => cases hidx
    | cons x xs =>
      rw [rndUpto, if_neg (by simp)] at hidx
      cases hidx
      exact ⟨rfl, rfl⟩

/-- **A choice is pending after an odd number of the conversions that share
it.** -/
theorem convert_pending (h : convertParameterType type c p t = some ((T, q), t')) :
    (q.flipNext = 0 ↔ (p.flipNext = 0 ↔ c ≠ .kFlipSignChance2)) ∧
      (q.demoteNext = 0 ↔ (p.demoteNext = 0 ↔ c ≠ .kDemoteChance2)) := by
  by_cases hflip : c = .kFlipSignChance2
  · subst hflip
    by_cases hp : p.flipNext = 0
    · obtain ⟨-, rfl, -⟩ := convert_flip_first hp h
      cases coin t <;> simp [hp]
    · obtain ⟨-, rfl, -⟩ := convert_flip_second hp h
      simp [hp]
  by_cases hdemote : c = .kDemoteChance2
  · subst hdemote
    by_cases hp : p.demoteNext = 0
    · obtain ⟨-, rfl, -⟩ := convert_demote_first hp h
      cases coin t <;> simp [hp]
    · obtain ⟨-, rfl, -⟩ := convert_demote_second hp h
      simp [hp]
  · obtain ⟨rfl, -⟩ := convert_other hflip hdemote h
    simp [hflip, hdemote]

theorem convertAll_cons {d : Ty × TypeConversion} :
    convertAll (d :: cs) p t = some ((Ts, q), t') ↔ ∃ T p₁ t₁ Ts',
      convertParameterType d.1 d.2 p t = some ((T, p₁), t₁) ∧
        convertAll cs p₁ t₁ = some ((Ts', q), t') ∧ Ts = T :: Ts' := by
  constructor
  · intro h
    obtain ⟨⟨T, p₁⟩, t₁, hT, h⟩ := Gen.bind_eq_some.mp h
    obtain ⟨⟨Ts', p₂⟩, t₂, hTs, h⟩ := Gen.bind_eq_some.mp h
    cases h
    exact ⟨T, p₁, t₁, Ts', hT, hTs, rfl⟩
  · rintro ⟨T, p₁, t₁, Ts', hT, hTs, rfl⟩
    refine Gen.bind_eq_some.mpr ⟨(T, p₁), t₁, hT, ?_⟩
    exact Gen.bind_eq_some.mpr ⟨(Ts', q), t', hTs, rfl⟩

/-- How often a conversion is among those of a list. -/
def times (c : TypeConversion) (cs : List (Ty × TypeConversion)) : ℕ := cs.countP fun x => x.2 = c

theorem convertAll_pending (h : convertAll cs p t = some ((Ts, q), t')) :
    (q.flipNext = 0 ↔ (p.flipNext = 0 ↔ Even (times .kFlipSignChance2 cs))) ∧
      (q.demoteNext = 0 ↔ (p.demoteNext = 0 ↔ Even (times .kDemoteChance2 cs))) := by
  induction cs generalizing p t Ts with
  | nil =>
    cases h
    simp [times]
  | cons c cs ih =>
    obtain ⟨T, p₁, t₁, Ts', hT, hTs, rfl⟩ := convertAll_cons.mp h
    obtain ⟨hflip, hdemote⟩ := convert_pending hT
    obtain ⟨hflips, hdemotes⟩ := ih hTs
    have hcount : ∀ d, Even (times d (c :: cs)) ↔ (c.2 ≠ d ↔ Even (times d cs)) := by
      intro d
      unfold times
      rw [List.countP_cons]
      by_cases hd : c.2 = d
      · simp [hd, Nat.even_add_one]
      · simp [hd]
    rw [hflips, hdemotes, hflip, hdemote, hcount, hcount]
    exact ⟨iff_assoc, iff_assoc⟩

/-- **Nothing is pending** after an even number of each. -/
theorem convertAll_empty (h : convertAll cs {} t = some ((Ts, q), t'))
    (hflip : Even (times .kFlipSignChance2 cs)) (hdemote : Even (times .kDemoteChance2 cs)) :
    q = {} := by
  obtain ⟨h1, h2⟩ := convertAll_pending h
  obtain ⟨flipNext, demoteNext⟩ := q
  have hf : flipNext = 0 := h1.mpr (by simpa using hflip)
  have hd : demoteNext = 0 := h2.mpr (by simpa using hdemote)
  rw [hf, hd]

theorem times_params (f : Func) (type : Ty) :
    Even (times .kFlipSignChance2 (f.params.map fun c => (type, c))) ∧
      Even (times .kDemoteChance2 (f.params.map fun c => (type, c))) := by
  cases f <;> exact ⟨by simp [times, Func.params],
    by simp [times, Func.params]⟩

end Convert

end BuiltIn

end CLSmith
