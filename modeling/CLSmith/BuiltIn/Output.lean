import CLSmith.BuiltIn.Select
import Mathlib.Data.List.Zip
import Mathlib.Tactic.Tauto
/-!
# Printing the built-in functions

`FunctionInvocationBuiltIn::Output` casts each scalar argument to the type
`GetParameterType` gives, which asks `ConvertParameterType` once more: the
coin behind the type of an argument of `abs_diff` is flipped again, and
where the first argument prints such calls itself, they take the choice
meant for the second.
-/

namespace CLSmith

namespace BuiltIn

mutual

/-- **An expression**, as far as its printing meets built-in functions: one
without parts, one printed in two parts, or a call. -/
inductive Expr
  | leaf (type : Ty)
  | compound (type : Ty) (fst snd : Expr)
  | builtIn (func : Func) (type : Ty) (params : Args)

/-- The arguments of a call, each with the type it was generated for. -/
inductive Args
  | nil
  | cons (paramType : Ty) (arg : Expr) (rest : Args)

end

/-- `get_type`. -/
def Expr.type : Expr → Ty
  | .leaf type => type
  | .compound type _ _ => type
  | .builtIn _ type _ => type

/-- The types the arguments were generated for. -/
def Args.types : Args → List Ty
  | .nil => []
  | .cons paramType _ rest => paramType :: rest.types

mutual

/-- **What `make_random` can return**, with the statics before and after:
`FunctionSelector` is asked, and then an expression is made for each
parameter. One for a scalar is a scalar, one for a vector a vector. -/
def Expr.Made : Expr → Pending → Pending → Prop
  | .leaf _, p, p' => p = p'
  | .compound _ fst snd, p, p' => ∃ q, fst.Made p q ∧ snd.Made q p'
  | .builtIn func type params, p, p' => ∃ q t t',
    functionSelector type p t = some ((func, params.types, q), t') ∧ params.Made q p'

def Args.Made : Args → Pending → Pending → Prop
  | .nil, p, p' => p = p'
  | .cons paramType arg rest, p, p' => arg.type.isSimple = paramType.isSimple ∧
    ∃ q, arg.Made p q ∧ rest.Made q p'

end

/-- `GetParameterType`. -/
def getParameterType (func : Func) (type : Ty) (idx : ℕ) (p : Pending) : Gen (Ty × Pending) := do
  let conversion ← Gen.ofOption func.params[idx]?
  convertParameterType type conversion p

/-- **A call as it is printed**: for each argument the type it was generated
for and the cast before it. -/
structure PrintedCall where
  func : Func
  type : Ty
  args : List (Ty × Option Ty)
deriving DecidableEq

mutual

/-- **`Output`**: the calls in the order they begin in, and the statics
after them. -/
def Expr.output : Expr → Pending → Gen (List PrintedCall × Pending)
  | .leaf _, p => return ([], p)
  | .compound _ fst snd, p => do
    let (calls, p) ← fst.output p
    let (calls', p) ← snd.output p
    return (calls ++ calls', p)
  | .builtIn func type params, p => do
    let (args, calls, p) ← params.output func type 0 p
    return (⟨func, type, args⟩ :: calls, p)

/-- The loop of `Output` over the arguments from `idx` on. -/
def Args.output (func : Func) (type : Ty) :
    ℕ → Args → Pending → Gen (List (Ty × Option Ty) × List PrintedCall × Pending)
  | _, .nil, p => return ([], [], p)
  | idx, .cons paramType arg rest, p => do
    let (cast, p) ← if arg.type.isSimple then do
        let (castType, p) ← getParameterType func type idx p
        pure (some castType.demote, p)
      else pure (none, p)
    let (calls, p) ← arg.output p
    let (args, calls', p) ← rest.output func type (idx + 1) p
    return ((paramType, cast) :: args, calls ++ calls', p)

end

/-- **The casts of a printed `abs_diff` of scalars** are to one type, the
one its arguments were generated for. -/
def PrintedCall.Matches (c : PrintedCall) : Prop :=
  c.func = .kAbsDiff → c.type.isSimple = true →
    ∃ T, c.args = [(T, some T), (T, some T)]

/-- A cast that is printed: the conversion asked for it, and the type its
argument was generated for. -/
structure Cast where
  type : Ty
  conversion : TypeConversion
  paramType : Ty

mutual

/-- **The casts** of an expression, in the order they are printed in. The calls of
built-ins have one for each argument, and those inside an argument come with it. -/
def Expr.casts : Expr → List Cast
  | .leaf _ => []
  | .compound _ fst snd => fst.casts ++ snd.casts
  | .builtIn func type params => params.casts func type 0

def Args.casts (func : Func) (type : Ty) : ℕ → Args → List Cast
  | _, .nil => []
  | idx, .cons paramType arg rest =>
    (if arg.type.isSimple then
        (func.params[idx]?.toList.map fun conversion => ⟨type, conversion, paramType⟩)
      else []) ++ arg.casts ++ rest.casts func type (idx + 1)

end

/-- The sign chosen for each cast of an `abs_diff` when its argument was
generated: whether it was flipped. -/
def signChoices (casts : List Cast) : List Bool :=
  casts.filterMap fun c =>
    if c.conversion = .kFlipSignChance2 then some (decide (c.paramType ≠ c.type)) else none

/-- **The coins flipped for a sign** while these conversions are made: one
for every other of them, when none is pending. -/
def signCoins : Bool → Bool → List TypeConversion → Tape → List Bool
  | _, _, [], _ => []
  | flipPending, demotePending, c :: cs, t =>
    match c with
    | .kFlipSignChance2 =>
      if flipPending then signCoins false demotePending cs t
      else coin t :: signCoins true demotePending cs (t.drop 1)
    | .kDemoteChance2 =>
      if demotePending then signCoins flipPending false cs t
      else signCoins flipPending true cs (t.drop 1)
    | c => signCoins flipPending demotePending cs (t.drop c.draws)

/-- **Each coin matches twice**: the coins flipped while printing are, two
arguments at a time, the choices the arguments were generated with. -/
def CoinsMatch (e : Expr) (t : Tape) : Prop :=
  signChoices e.casts =
    (signCoins false false (e.casts.map Cast.conversion) t).flatMap fun b => [b, b]

/-! ## What is selected -/

section Select

variable {type : Ty} {func : Func} {types : List Ty} {p q : Pending} {t t' : Tape}

theorem functionSelector_cases (h : functionSelector type p t = some ((func, types, q), t')) :
    (type = .other ∧ func = .kIdentity ∧ q = p) ∨
      (func = .kAbsDiff → type.isSigned = false) ∧
      ∃ t₁, convertAll (func.params.map fun c => (type, c)) p t₁ = some ((types, q), t') := by
  unfold functionSelector at h
  split at h
  · cases h
    exact .inl ⟨‹_›, rfl, rfl⟩
  · obtain ⟨rnd, t₁, hrnd, h⟩ := Gen.bind_eq_some.mp h
    obtain ⟨key, t₂, hkey, h⟩ := Gen.bind_eq_some.mp h
    obtain ⟨hlookup, rfl⟩ := Gen.ofOption_eq_some.mp hkey
    obtain ⟨f, t₃, hf, h⟩ := Gen.bind_eq_some.mp h
    obtain ⟨hfunc, rfl⟩ := Gen.ofOption_eq_some.mp hf
    obtain ⟨⟨Ts, p'⟩, t₄, hconv, h⟩ := Gen.bind_eq_some.mp h
    cases h
    refine .inr ⟨?_, t₁, hconv⟩
    rintro rfl
    by_contra hsigned
    -- the draw passed the filter, and the filter has the key of `abs_diff`
    have hfilter := rndUpto_filter hrnd
    rw [VectorFilter.filter, hlookup] at hfilter
    have hmem : Func.kAbsDiff.key ∈ type.filter.vs := by
      have hs : type.isSigned = true := by simpa using hsigned
      unfold Ty.filter
      simp only [hs, if_true]
      split <;> split <;> decide
    have hkeyeq : key = Func.kAbsDiff.key := by
      have hlt : key < Func.all.length := (List.getElem?_eq_some_iff.mp hfunc).1
      have hget := (List.getElem?_eq_some_iff.mp hfunc).2
      have hall : ∀ k (hk : k < Func.all.length), Func.all[k] = .kAbsDiff → k = 2 := by decide
      exact hall key hlt hget
    rw [hkeyeq] at hfilter
    simp [hmem] at hfilter

/-- Selecting leaves nothing pending. -/
theorem functionSelector_pending (h : functionSelector type {} t = some ((func, types, q), t')) :
    q = {} := by
  rcases functionSelector_cases h with ⟨-, -, rfl⟩ | ⟨-, t₁, hconv⟩
  · rfl
  · exact convertAll_empty hconv (times_params func type).1 (times_params func type).2

theorem Ty.flipSign_of_unsigned {s : SimpleType} (h : s.isSigned = false) :
    ∃ s', (Ty.simple s).flipSign = some (.simple s') ∧ s' ≠ s := by
  cases s <;> first | (exact absurd h (by decide)) | exact ⟨_, rfl, by decide⟩

/-- **The parameters of a selected `abs_diff`** are of one type: its own or
the other sign's. -/
theorem absDiff_types (h : functionSelector type {} t = some ((.kAbsDiff, types, q), t')) :
    ∃ T, types = [T, T] ∧ T.isSimple = type.isSimple ∧
      (type.isSimple = true → ∃ T', type.flipSign = some T' ∧ T' ≠ type ∧ T'.isSimple = true ∧
        (T = type ∨ T = T')) := by
  rcases functionSelector_cases h with ⟨-, hid, -⟩ | ⟨hsign, t₁, hconv⟩
  · cases hid
  have hunsigned := hsign rfl
  obtain ⟨T, p₁, t₂, Ts, hT, hTs, rfl⟩ := convertAll_cons.mp hconv
  obtain ⟨T', p₂, t₃, Ts', hT', hnil, rfl⟩ := convertAll_cons.mp hTs
  cases hnil
  obtain ⟨-, rfl, hfirst⟩ := convert_flip_first rfl hT
  obtain ⟨-, -, hsecond⟩ := convert_flip_second (by cases coin t₁ <;> simp) hT'
  -- the second parameter takes the coin that the first has left pending
  have hsame : T' = T := by
    refine Option.some_injective _ (hsecond.symm.trans ?_)
    rw [← hfirst]
    cases coin t₁ <;> simp
  subst hsame
  refine ⟨T', rfl, ?_, ?_⟩
  · cases hc : coin t₁ with
    | false =>
      rw [hc] at hfirst
      cases hfirst
      rfl
    | true =>
      rw [hc, if_pos rfl] at hfirst
      cases type with
      | other => cases hfirst
      | simple s =>
        obtain ⟨s', hs', -⟩ := Ty.flipSign_of_unsigned hunsigned
        rw [hs'] at hfirst
        cases hfirst
        rfl
      | vector s n =>
        cases s <;> first | (exact absurd hunsigned (by decide)) | (cases hfirst <;> rfl)
  · intro hsimple
    cases type with
    | other => cases hsimple
    | vector s n => cases hsimple
    | simple s =>
      obtain ⟨s', hs', hne⟩ := Ty.flipSign_of_unsigned hunsigned
      refine ⟨.simple s', hs', by simpa using hne, rfl, ?_⟩
      cases hc : coin t₁ with
      | false =>
        rw [hc] at hfirst
        cases hfirst
        exact .inl rfl
      | true =>
        rw [hc, if_pos rfl, hs'] at hfirst
        cases hfirst
        exact .inr rfl

end Select

/-! ## Casts one after the other -/

section Casts

variable {cs cs' : List Cast} {Ts Ts' : List Ty} {p q q' : Pending} {t t' t'' : Tape}

/-- The conversions of the casts, made. -/
def makeCasts (cs : List Cast) : Pending → Gen (List Ty × Pending) :=
  convertAll (cs.map fun c => (c.type, c.conversion))

theorem makeCasts_cons {c : Cast} :
    makeCasts (c :: cs) p t = some ((Ts, q), t') ↔ ∃ T p₁ t₁ Ts',
      convertParameterType c.type c.conversion p t = some ((T, p₁), t₁) ∧
        makeCasts cs p₁ t₁ = some ((Ts', q), t') ∧ Ts = T :: Ts' :=
  convertAll_cons

theorem makeCasts_append (h : makeCasts cs p t = some ((Ts, q), t'))
    (h' : makeCasts cs' q t' = some ((Ts', q'), t'')) :
    makeCasts (cs ++ cs') p t = some ((Ts ++ Ts', q'), t'') := by
  induction cs generalizing p t Ts with
  | nil =>
    cases h
    exact h'
  | cons c cs ih =>
    obtain ⟨T, p₁, t₁, Ts₁, hT, hTs, rfl⟩ := makeCasts_cons.mp h
    exact makeCasts_cons.mpr ⟨T, p₁, t₁, Ts₁ ++ Ts', hT, ih hTs, rfl⟩

theorem makeCasts_single {c : Cast} {T : Ty}
    (h : convertParameterType c.type c.conversion p t = some ((T, q), t')) :
    makeCasts [c] p t = some (([T], q), t') :=
  makeCasts_cons.mpr ⟨T, q, t', [], h, rfl, rfl⟩

theorem length_makeCasts (h : makeCasts cs p t = some ((Ts, q), t')) : Ts.length = cs.length := by
  induction cs generalizing p t Ts with
  | nil =>
    cases h
    rfl
  | cons c cs ih =>
    obtain ⟨T, p₁, t₁, Ts₁, -, hTs, rfl⟩ := makeCasts_cons.mp h
    rw [List.length_cons, List.length_cons, ih hTs]

/-- **The casts to a sign** come out as the types of the arguments. These are the
conversions that take a coin in the making and another in the printing. -/
def SignsMatch (cs : List Cast) (Ts : List Ty) : Prop :=
  ∀ x ∈ cs.zip Ts, x.1.conversion = .kFlipSignChance2 → x.2 = x.1.paramType

theorem signsMatch_append (h : Ts.length = cs.length) :
    SignsMatch (cs ++ cs') (Ts ++ Ts') ↔ SignsMatch cs Ts ∧ SignsMatch cs' Ts' := by
  unfold SignsMatch
  rw [List.zip_append h.symm]
  simp only [List.mem_append, or_imp, forall_and]

theorem signChoices_cons (c : Cast) (cs : List Cast) : signChoices (c :: cs) =
    (if c.conversion = .kFlipSignChance2 then [decide (c.paramType ≠ c.type)] else []) ++
      signChoices cs := by
  rw [signChoices, List.filterMap_cons]
  split <;> simp_all [signChoices]

/-- A cast to a sign is of a scalar, and its argument was generated for the
type or for its other sign. -/
def Cast.Signed (c : Cast) : Prop :=
  c.conversion = .kFlipSignChance2 → c.type.isSimple = true ∧
    ∃ T', c.type.flipSign = some T' ∧ T' ≠ c.type ∧ T'.isSimple = true ∧
      (c.paramType = c.type ∨ c.paramType = T')

/-- The choice that is pending. -/
def Pending.sign (p : Pending) : List Bool :=
  if p.flipNext = 0 then [] else [decide (p.flipNext = 1)]

/-- **What the coins come to**: the choices used, and one still pending at
the end, are one pending at the start and each coin twice. -/
theorem exists_signs (hcs : ∀ c ∈ cs, c.Signed) (h : makeCasts cs p t = some ((Ts, q), t')) :
    ∃ bs, (SignsMatch cs Ts ↔ signChoices cs = bs) ∧ bs ++ q.sign = p.sign ++
      (signCoins (decide (p.flipNext ≠ 0)) (decide (p.demoteNext ≠ 0)) (cs.map Cast.conversion)
        t).flatMap fun b => [b, b] := by
  induction cs generalizing p t Ts with
  | nil =>
    cases h
    refine ⟨[], ?_, by simp [signCoins]⟩
    simp [SignsMatch, signChoices]
  | cons c cs ih =>
    obtain ⟨T, p₁, t₁, Ts₁, hT, hTs, rfl⟩ := makeCasts_cons.mp h
    obtain ⟨bs, hmatch, hbs⟩ := ih (fun d hd => hcs d (List.mem_cons_of_mem c hd)) hTs
    have hsplit : SignsMatch (c :: cs) (T :: Ts₁) ↔
        (c.conversion = .kFlipSignChance2 → T = c.paramType) ∧ SignsMatch cs Ts₁ := by
      simp [SignsMatch, List.zip_cons_cons]
    by_cases hflip : c.conversion = .kFlipSignChance2
    · rw [hflip] at hT
      obtain ⟨-, T', hT', hne, -, hparam⟩ := hcs c List.mem_cons_self hflip
      -- the cast is right exactly when the choice is the one of the argument
      have hright : ∀ b : Bool, (if b then c.type.flipSign else some c.type) = some T →
          (T = c.paramType ↔ decide (c.paramType ≠ c.type) = b) := by
        intro b hb
        cases b with
        | false =>
          obtain rfl : c.type = T := by simpa using hb
          rcases hparam with hparam | hparam
          · simp [hparam]
          · simp [hparam, hne, Ne.symm hne]
        | true =>
          obtain rfl : T' = T := by simpa [hT'] using hb
          rcases hparam with hparam | hparam
          · simp [hparam, hne]
          · simp [hparam, hne]
      have hchoices : ∀ b : Bool, (if b then c.type.flipSign else some c.type) = some T →
          (SignsMatch (c :: cs) (T :: Ts₁) ↔ signChoices (c :: cs) = b :: bs) := by
        intro b hb
        rw [hsplit, hmatch, signChoices_cons, if_pos hflip, List.singleton_append,
          List.cons.injEq, ← hright b hb]
        simp [hflip]
      by_cases hp : p.flipNext = 0
      · obtain ⟨⟨x, rfl⟩, rfl, hsign⟩ := convert_flip_first hp hT
        refine ⟨coin (x :: t₁) :: bs, hchoices _ hsign, ?_⟩
        have hpend : (if coin (x :: t₁) = true then (1 : ℤ) else -1) ≠ 0 := by split <;> decide
        simp only [Pending.sign, hpend, if_false, ne_eq, not_false_eq_true, decide_true] at hbs
        simp only [Pending.sign, hp, List.map_cons, hflip, signCoins, if_true, ne_eq,
          not_true_eq_false, decide_false, Bool.false_eq_true, if_false, List.flatMap_cons,
          List.cons_append, List.nil_append, List.drop_succ_cons, List.drop_zero]
        rw [hbs]
        cases coin (x :: t₁) <;> simp
      · obtain ⟨rfl, rfl, hsign⟩ := convert_flip_second hp hT
        have hsign' : (if decide (p.flipNext = 1) then c.type.flipSign else some c.type) =
            some T := by
          simpa using hsign
        refine ⟨decide (p.flipNext = 1) :: bs, hchoices _ hsign', ?_⟩
        simp only [Pending.sign, if_true, ne_eq, not_true_eq_false, decide_false] at hbs
        simp only [Pending.sign, hp, List.map_cons, hflip, signCoins, if_false, ne_eq,
          not_false_eq_true, decide_true, if_true, List.cons_append, List.nil_append]
        rw [hbs]
        simp
    have hmatch' : SignsMatch (c :: cs) (T :: Ts₁) ↔ signChoices (c :: cs) = bs := by
      rw [hsplit, hmatch, signChoices_cons]
      simp [hflip]
    refine ⟨bs, hmatch', ?_⟩
    by_cases hdemote : c.conversion = .kDemoteChance2
    · rw [hdemote] at hT
      by_cases hp : p.demoteNext = 0
      · obtain ⟨⟨x, rfl⟩, rfl, -⟩ := convert_demote_first hp hT
        have hpend : (if coin (x :: t₁) = true then (1 : ℤ) else -1) ≠ 0 := by split <;> decide
        simpa [Pending.sign, hp, hdemote, signCoins, hpend] using hbs
      · obtain ⟨rfl, rfl, -⟩ := convert_demote_second hp hT
        simpa [Pending.sign, hp, hdemote, signCoins] using hbs
    · obtain ⟨rfl, rfl⟩ := convert_other hflip hdemote hT
      rw [hbs, List.map_cons, signCoins]
      · exact hflip
      · exact hdemote

end Casts

/-! ## The casts of a tree -/

section Trees

variable {func : Func} {type : Ty} {types Ts : List Ty} {p p' q : Pending} {t t' : Tape}
  {e : Expr} {args : Args} {idx : ℕ} {calls : List PrintedCall} {printed : List (Ty × Option Ty)}

/-- The casts of a call itself, of its arguments of these types. -/
def ownCasts (type : Ty) (cs : List TypeConversion) (types : List Ty) : List Cast :=
  (cs.zip types).filterMap fun x => if x.2.isSimple then some ⟨type, x.1, x.2⟩ else none

theorem ownCasts_cons {c : TypeConversion} {cs : List TypeConversion} {T : Ty} :
    ownCasts type (c :: cs) (T :: types) =
      (if T.isSimple then [⟨type, c, T⟩] else []) ++ ownCasts type cs types := by
  rw [ownCasts, List.zip_cons_cons, List.filterMap_cons]
  split <;> simp_all [ownCasts]

theorem params_drop (h : idx < func.params.length) :
    func.params.drop idx = func.params[idx] :: func.params.drop (idx + 1) :=
  (List.getElem_cons_drop h).symm

/-- The functions without a pair of parameters. -/
theorem params_other (habs : func ≠ .kAbsDiff) (hclamp : func ≠ .kClamp) :
    .kFlipSignChance2 ∉ func.params ∧ .kDemoteChance2 ∉ func.params := by
  cases func <;> first | exact absurd rfl habs | exact absurd rfl hclamp | decide

/-- How many casts ask for a conversion. -/
def count (d : TypeConversion) (cs : List Cast) : ℕ := cs.countP fun c => c.conversion = d

@[simp] theorem count_append (d : TypeConversion) (cs cs' : List Cast) :
    count d (cs ++ cs') = count d cs + count d cs' :=
  List.countP_append

theorem times_casts (d : TypeConversion) (cs : List Cast) :
    times d (cs.map fun c => (c.type, c.conversion)) = count d cs := by
  rw [times, List.countP_map]
  rfl

/-- **The last two parameters of a selected `clamp`** are of one type. -/
theorem clamp_types (h : functionSelector type {} t = some ((.kClamp, types, q), t')) :
    ∃ T₀ T, types = [T₀, T, T] := by
  rcases functionSelector_cases h with ⟨-, hid, -⟩ | ⟨-, t₁, hconv⟩
  · cases hid
  obtain ⟨T₀, p₀, t₂, Ts, hT₀, hTs, rfl⟩ := convertAll_cons.mp hconv
  obtain ⟨T, p₁, t₃, Ts', hT, hTs', rfl⟩ := convertAll_cons.mp hTs
  obtain ⟨T', p₂, t₄, Ts'', hT', hnil, rfl⟩ := convertAll_cons.mp hTs'
  cases hnil
  obtain ⟨rfl, -⟩ := convert_other (c := .kExact) (by decide) (by decide) hT₀
  obtain ⟨-, rfl, rfl⟩ := convert_demote_first rfl hT
  obtain ⟨-, -, rfl⟩ := convert_demote_second (by cases coin t₂ <;> simp) hT'
  refine ⟨T₀, if coin t₂ then type.demote else type, ?_⟩
  cases coin t₂ <;> rfl

/-- **What the casts of a call itself ask for**: a sign twice or not at
all, and so with the choice to demote. -/
theorem ownCasts_selected (h : functionSelector type {} t = some ((func, types, q), t')) :
    (∀ c ∈ ownCasts type func.params types, c.Signed) ∧
      Even (count .kFlipSignChance2 (ownCasts type func.params types)) ∧
      Even (count .kDemoteChance2 (ownCasts type func.params types)) := by
  by_cases habs : func = .kAbsDiff
  · subst habs
    obtain ⟨T, rfl, hsame, hother⟩ := absDiff_types h
    simp only [Func.params, ownCasts_cons]
    cases hs : T.isSimple with
    | false => simp [ownCasts, count]
    | true =>
      obtain ⟨T', hT', hne, hsimple, hor⟩ := hother (hsame ▸ hs)
      refine ⟨?_, by simp [ownCasts, count], by simp [ownCasts, count]⟩
      intro c hc hflip
      have hc' : c = ⟨type, .kFlipSignChance2, T⟩ := by simpa [ownCasts, hs] using hc
      subst hc'
      exact ⟨hsame ▸ hs, T', hT', hne, hsimple, hor⟩
  -- these two alone ask for a choice that stays pending
  by_cases hclamp : func = .kClamp
  · subst hclamp
    obtain ⟨T₀, T, rfl⟩ := clamp_types h
    simp only [Func.params, ownCasts_cons]
    split <;> split <;> simp [ownCasts, count, Cast.Signed]
  · have hother : ∀ c ∈ ownCasts type func.params types,
        c.conversion ≠ .kFlipSignChance2 ∧ c.conversion ≠ .kDemoteChance2 := by
      intro c hc
      obtain ⟨x, hx, hxc⟩ := List.mem_filterMap.mp hc
      split at hxc
      · cases hxc
        have hmem : x.1 ∈ func.params := (List.of_mem_zip hx).1
        obtain ⟨hflip, hdemote⟩ := params_other habs hclamp
        exact ⟨fun hx => hflip (hx ▸ hmem), fun hx => hdemote (hx ▸ hmem)⟩
      · cases hxc
    refine ⟨fun c hc hflip => absurd hflip (hother c hc).1, ?_, ?_⟩
    · rw [count, List.countP_eq_zero.mpr fun c hc => by simpa using (hother c hc).1]
      exact Even.zero
    · rw [count, List.countP_eq_zero.mpr fun c hc => by simpa using (hother c hc).2]
      exact Even.zero

/-- Casts that ask for signs that can be asked for, and for each choice an
even number of times. -/
def Paired (cs : List Cast) : Prop :=
  (∀ c ∈ cs, c.Signed) ∧ Even (count .kFlipSignChance2 cs) ∧ Even (count .kDemoteChance2 cs)

theorem Paired.append {cs cs' : List Cast} (h : Paired cs) (h' : Paired cs') :
    Paired (cs ++ cs') := by
  obtain ⟨hsigned, hflip, hdemote⟩ := h
  obtain ⟨hsigned', hflip', hdemote'⟩ := h'
  refine ⟨?_, ?_, ?_⟩
  · intro c hc
    rcases List.mem_append.mp hc with hc | hc
    · exact hsigned c hc
    · exact hsigned' c hc
  · rw [count_append]
    exact hflip.add hflip'
  · rw [count_append]
    exact hdemote.add hdemote'

/-- Casts put among others that are paired. -/
theorem Paired.insert {cs own rest : List Cast} (h : Paired cs) (hown : Paired (own ++ rest)) :
    Paired (own ++ cs ++ rest) := by
  obtain ⟨hsigned, hflip, hdemote⟩ := h
  obtain ⟨hsigned', hflip', hdemote'⟩ := hown
  refine ⟨?_, ?_, ?_⟩
  · intro c hc
    simp only [List.mem_append] at hc hsigned'
    rcases hc with (hc | hc) | hc
    · exact hsigned' c (.inl hc)
    · exact hsigned c hc
    · exact hsigned' c (.inr hc)
  · simp only [count_append] at hflip' ⊢
    have := hflip.add hflip'
    rwa [show count .kFlipSignChance2 own + count .kFlipSignChance2 cs +
      count .kFlipSignChance2 rest = count .kFlipSignChance2 cs +
        (count .kFlipSignChance2 own + count .kFlipSignChance2 rest) by omega]
  · simp only [count_append] at hdemote' ⊢
    have := hdemote.add hdemote'
    rwa [show count .kDemoteChance2 own + count .kDemoteChance2 cs +
      count .kDemoteChance2 rest = count .kDemoteChance2 cs +
        (count .kDemoteChance2 own + count .kDemoteChance2 rest) by omega]

/-- The cast of one argument. -/
def headCast (func : Func) (type : Ty) (idx : ℕ) (T : Ty) : List Cast :=
  if T.isSimple then func.params[idx]?.toList.map fun conversion => ⟨type, conversion, T⟩ else []

theorem ownCasts_drop {T : Ty} : ownCasts type (func.params.drop idx) (T :: types) =
    headCast func type idx T ++ ownCasts type (func.params.drop (idx + 1)) types := by
  by_cases h : idx < func.params.length
  · rw [params_drop h, ownCasts_cons, headCast, List.getElem?_eq_getElem h]
    rfl
  · have hlen : func.params.length ≤ idx := by omega
    rw [List.drop_eq_nil_of_le hlen, List.drop_eq_nil_of_le (by omega), headCast,
      List.getElem?_eq_none hlen]
    simp [ownCasts]

theorem Args.casts_cons {T : Ty} {arg : Expr} {rest : Args}
    (h : arg.type.isSimple = T.isSimple) : (Args.cons T arg rest).casts func type idx =
      headCast func type idx T ++ arg.casts ++ rest.casts func type (idx + 1) := by
  rw [Args.casts, headCast, h]

mutual

/-- **What was made is paired**, and making it leaves nothing pending. -/
theorem Expr.made_paired : ∀ (e : Expr) {p' : Pending}, e.Made {} p' → p' = {} ∧ Paired e.casts
  | .leaf _, _, h => ⟨h.symm, by simp [Paired, Expr.casts, count]⟩
  | .compound _ fst snd, _, ⟨q, hfst, hsnd⟩ => by
    obtain ⟨rfl, hf⟩ := fst.made_paired hfst
    obtain ⟨rfl, hs⟩ := snd.made_paired hsnd
    exact ⟨rfl, hf.append hs⟩
  | .builtIn func type params, _, ⟨q, t, t', hsel, hparams⟩ => by
    obtain rfl := functionSelector_pending hsel
    exact params.made_paired 0 [] hparams (ownCasts_selected hsel)

/-- The casts before may hold the first of a pair. -/
theorem Args.made_paired {func : Func} {type : Ty} : ∀ (args : Args) (idx : ℕ)
    (before : List Cast) {p' : Pending}, args.Made {} p' →
      Paired (before ++ ownCasts type (func.params.drop idx) args.types) →
        p' = {} ∧ Paired (before ++ args.casts func type idx)
  | .nil, _, _, _, h, hown => ⟨h.symm, by simpa [Args.casts, Args.types, ownCasts] using hown⟩
  | .cons T arg rest, idx, before, _, ⟨hsame, q, harg, hrest⟩, hown => by
    obtain ⟨rfl, hcasts⟩ := arg.made_paired harg
    rw [Args.types, ownCasts_drop, ← List.append_assoc] at hown
    obtain ⟨rfl, hpaired⟩ := rest.made_paired (idx + 1) _ hrest hown
    refine ⟨rfl, ?_⟩
    rw [Args.casts_cons hsame, ← List.append_assoc, ← List.append_assoc]
    exact hcasts.insert hpaired

end

/-- How an argument is printed. -/
theorem Args.output_cons {T : Ty} {arg : Expr} {rest : Args}
    (h : (Args.cons T arg rest).output func type idx p t = some ((printed, calls, q), t')) :
    ∃ cast p₁ t₁ calls₁ p₂ t₂ printed' calls',
      arg.output p₁ t₁ = some ((calls₁, p₂), t₂) ∧
      rest.output func type (idx + 1) p₂ t₂ = some ((printed', calls', q), t') ∧
      printed = (T, cast) :: printed' ∧ calls = calls₁ ++ calls' ∧
      (if arg.type.isSimple then ∃ conversion castType, func.params[idx]? = some conversion ∧
          convertParameterType type conversion p t = some ((castType, p₁), t₁) ∧
            cast = some castType.demote
        else cast = none ∧ p₁ = p ∧ t₁ = t) := by
  rw [Args.output] at h
  split at h
  · obtain ⟨⟨castType, p₁⟩, t₁, htype, h⟩ := Gen.bind_eq_some.mp h
    obtain ⟨⟨cast, p₀⟩, t₀, hcast, h⟩ := Gen.bind_eq_some.mp h
    cases hcast
    obtain ⟨⟨calls₁, p₂⟩, t₂, harg, h⟩ := Gen.bind_eq_some.mp h
    obtain ⟨⟨printed', calls', p₃⟩, t₃, hrest, h⟩ := Gen.bind_eq_some.mp h
    cases h
    obtain ⟨conversion, t₅, hof, htype⟩ := Gen.bind_eq_some.mp htype
    obtain ⟨hconv, rfl⟩ := Gen.ofOption_eq_some.mp hof
    refine ⟨_, p₁, t₁, calls₁, p₂, t₂, printed', calls', harg, hrest, rfl, rfl, ?_⟩
    rw [if_pos ‹_›]
    exact ⟨conversion, castType, hconv, htype, rfl⟩
  · obtain ⟨⟨cast, p₀⟩, t₀, hcast, h⟩ := Gen.bind_eq_some.mp h
    cases hcast
    obtain ⟨⟨calls₁, p₂⟩, t₂, harg, h⟩ := Gen.bind_eq_some.mp h
    obtain ⟨⟨printed', calls', p₃⟩, t₃, hrest, h⟩ := Gen.bind_eq_some.mp h
    cases h
    refine ⟨none, p, t, calls₁, p₂, t₂, printed', calls', harg, hrest, rfl, rfl, ?_⟩
    rw [if_neg ‹_›]
    exact ⟨rfl, rfl, rfl⟩

/-- A cast to a sign that is asked for is printed as it comes out. -/
theorem Cast.Signed.demote {c : Cast} {T : Ty} (hc : c.Signed)
    (hflip : c.conversion = .kFlipSignChance2)
    (h : convertParameterType c.type c.conversion p t = some ((T, q), t')) : T.demote = T := by
  obtain ⟨hsimple, T', hT', -, hsimple', -⟩ := hc hflip
  rw [hflip] at h
  obtain ⟨n, -, -, hsign⟩ := convert_flip2 h
  have hdemote : ∀ U : Ty, U.isSimple = true → U.demote = U := by
    intro U hU
    cases U with
    | simple s => rfl
    | vector s n => cases hU
    | other => cases hU
  split at hsign
  · obtain rfl : T' = T := by simpa [hT'] using hsign
    exact hdemote _ hsimple'
  · obtain rfl : c.type = T := by simpa using hsign
    exact hdemote _ hsimple

/-- The printed casts that ask for a sign are to the types of their
arguments. -/
def PrintedMatch (cs : List TypeConversion) (printed : List (Ty × Option Ty)) : Prop :=
  ∀ x ∈ cs.zip printed, x.1 = .kFlipSignChance2 → ∀ T, x.2.2 = some T → T = x.2.1

/-- **One argument more** of a call being printed. -/
theorem printedMatch_drop {T : Ty} {cast : Option Ty} :
    PrintedMatch (func.params.drop idx) ((T, cast) :: printed) ↔
      (func.params[idx]? = some .kFlipSignChance2 → ∀ T', cast = some T' → T' = T) ∧
        PrintedMatch (func.params.drop (idx + 1)) printed := by
  by_cases h : idx < func.params.length
  · unfold PrintedMatch
    rw [params_drop h, List.getElem?_eq_getElem h, List.zip_cons_cons]
    simp only [List.forall_mem_cons, Option.some.injEq]
  · have hlen : func.params.length ≤ idx := by omega
    rw [List.drop_eq_nil_of_le hlen, List.drop_eq_nil_of_le (by omega), List.getElem?_eq_none hlen]
    simp [PrintedMatch]

/-- One cast asked for in printing, and what becomes of it. -/
theorem headCast_printed {T : Ty} {arg : Expr} {cast : Option Ty}
    (hsame : arg.type.isSimple = T.isSimple)
    (hsigned : ∀ c ∈ headCast func type idx T, c.Signed)
    (h : if arg.type.isSimple then ∃ conversion castType, func.params[idx]? = some conversion ∧
          convertParameterType type conversion p t = some ((castType, q), t') ∧
            cast = some castType.demote
        else cast = none ∧ q = p ∧ t' = t) :
    cast.isSome = T.isSimple ∧ ∃ Ts, makeCasts (headCast func type idx T) p t = some ((Ts, q), t') ∧
      (SignsMatch (headCast func type idx T) Ts ↔
        (func.params[idx]? = some .kFlipSignChance2 → ∀ T', cast = some T' → T' = T)) := by
  rw [hsame] at h
  split at h
  · rename_i hsimple
    obtain ⟨conversion, castType, hconv, hT, rfl⟩ := h
    have hhead : headCast func type idx T = [⟨type, conversion, T⟩] := by
      simp [headCast, hsimple, hconv]
    rw [hhead] at hsigned ⊢
    refine ⟨hsimple.symm, [castType], makeCasts_single hT, ?_⟩
    rw [hconv]
    simp only [SignsMatch, List.zip_cons_cons, List.zip_nil_right, List.forall_mem_cons,
      List.not_mem_nil, false_imp_iff, implies_true, and_true, Option.some.injEq, forall_eq']
    refine imp_congr_right fun hflip => ?_
    rw [(hsigned _ List.mem_cons_self).demote hflip hT]
  · rename_i hsimple
    obtain ⟨rfl, rfl, rfl⟩ := h
    have hhead : headCast func type idx T = [] := by simp [headCast, hsimple]
    rw [hhead]
    refine ⟨by simpa using hsimple, [], rfl, ?_⟩
    simp [SignsMatch]

/-- **A selected call's casts match** where those that ask for a sign do. -/
theorem matches_iff (h : functionSelector type {} t = some ((func, printed.map Prod.fst, q), t'))
    (hcast : ∀ x ∈ printed, x.2.isSome = x.1.isSimple) :
    (PrintedCall.mk func type printed).Matches ↔ PrintedMatch func.params printed := by
  by_cases habs : func = .kAbsDiff
  · subst habs
    obtain ⟨T, htypes, hsame, -⟩ := absDiff_types h
    have hlen : printed.length = 2 := by simpa using congrArg List.length htypes
    obtain ⟨⟨x₁, x₂⟩, ⟨y₁, y₂⟩, rfl⟩ := List.length_eq_two.mp hlen
    obtain ⟨rfl, rfl⟩ : x₁ = T ∧ y₁ = T := by simpa using htypes
    have hx₂ : x₂.isSome = y₁.isSimple := hcast (y₁, x₂) (by simp)
    have hy₂ : y₂.isSome = y₁.isSimple := hcast (y₁, y₂) (by simp)
    rw [hsame] at hx₂ hy₂
    cases hs : type.isSimple with
    | false =>
      have hx : x₂ = none := by simpa [hs] using hx₂
      have hy : y₂ = none := by simpa [hs] using hy₂
      simp [PrintedCall.Matches, PrintedMatch, Func.params, hs, hx, hy]
    | true =>
      obtain ⟨X, rfl⟩ := Option.isSome_iff_exists.mp (hx₂.trans hs)
      obtain ⟨Y, rfl⟩ := Option.isSome_iff_exists.mp (hy₂.trans hs)
      simp only [PrintedCall.Matches, PrintedMatch, Func.params, hs, List.zip_cons_cons,
        List.zip_nil_right, List.forall_mem_cons, List.not_mem_nil, false_imp_iff, implies_true,
        and_true, forall_const, Option.some.injEq, forall_eq', List.cons.injEq, Prod.mk.injEq]
      constructor
      · rintro ⟨T, ⟨rfl, rfl⟩, -, rfl⟩
        exact ⟨rfl, rfl⟩
      · rintro ⟨rfl, rfl⟩
        exact ⟨_, ⟨rfl, rfl⟩, rfl, rfl⟩
  · have hflip : .kFlipSignChance2 ∉ func.params := by
      cases func <;> first | exact absurd rfl habs | decide
    refine iff_of_true (fun h => absurd h habs) fun x hx hconv => ?_
    exact absurd (hconv ▸ (List.of_mem_zip hx).1) hflip

mutual

/-- **Printing makes the casts of the tree** one after the other, and its
calls match where the casts that ask for a sign do. -/
theorem Expr.output_casts : ∀ (e : Expr) {p' p q : Pending} {t t' : Tape}
    {calls : List PrintedCall}, e.Made {} p' → e.output p t = some ((calls, q), t') →
      ∃ Ts, makeCasts e.casts p t = some ((Ts, q), t') ∧
        ((∀ c ∈ calls, c.Matches) ↔ SignsMatch e.casts Ts)
  | .leaf _, _, _, _, _, _, _, _, h => by
    cases h
    exact ⟨[], rfl, by simp [SignsMatch]⟩
  | .compound _ fst snd, _, _, _, _, _, _, ⟨q, hfst, hsnd⟩, h => by
    obtain ⟨⟨calls₁, p₁⟩, t₁, h₁, h⟩ := Gen.bind_eq_some.mp h
    obtain ⟨⟨calls₂, p₂⟩, t₂, h₂, h⟩ := Gen.bind_eq_some.mp h
    cases h
    obtain ⟨rfl, -⟩ := fst.made_paired hfst
    obtain ⟨Ts₁, hcasts₁, hmatch₁⟩ := fst.output_casts hfst h₁
    obtain ⟨Ts₂, hcasts₂, hmatch₂⟩ := snd.output_casts hsnd h₂
    refine ⟨Ts₁ ++ Ts₂, makeCasts_append hcasts₁ hcasts₂, ?_⟩
    rw [Expr.casts, signsMatch_append (length_makeCasts hcasts₁), ← hmatch₁, ← hmatch₂]
    simp only [List.mem_append, or_imp, forall_and]
  | .builtIn func type params, _, _, _, _, _, _, ⟨q, t, t', hsel, hparams⟩, h => by
    obtain ⟨⟨printed, calls, p₁⟩, t₁, hout, h⟩ := Gen.bind_eq_some.mp h
    cases h
    obtain rfl := functionSelector_pending hsel
    obtain ⟨htypes, hcast, Ts, hcasts, hmatch⟩ :=
      params.output_casts 0 hparams (ownCasts_selected hsel).1 hout
    refine ⟨Ts, hcasts, ?_⟩
    rw [Expr.casts, ← hmatch, List.forall_mem_cons, and_comm]
    rw [← htypes] at hsel
    rw [matches_iff hsel hcast]
    rfl

/-- The arguments of a call from one of them on. -/
theorem Args.output_casts {func : Func} {type : Ty} : ∀ (args : Args) (idx : ℕ)
    {p' p q : Pending} {t t' : Tape} {printed : List (Ty × Option Ty)} {calls : List PrintedCall},
    args.Made {} p' → (∀ c ∈ ownCasts type (func.params.drop idx) args.types, c.Signed) →
      args.output func type idx p t = some ((printed, calls, q), t') →
        printed.map Prod.fst = args.types ∧ (∀ x ∈ printed, x.2.isSome = x.1.isSimple) ∧
        ∃ Ts, makeCasts (args.casts func type idx) p t = some ((Ts, q), t') ∧
          (((∀ c ∈ calls, c.Matches) ∧ PrintedMatch (func.params.drop idx) printed) ↔
            SignsMatch (args.casts func type idx) Ts)
  | .nil, _, _, _, _, _, _, _, _, _, _, h => by
    cases h
    exact ⟨rfl, by simp, [], rfl, by simp [SignsMatch, PrintedMatch, Args.casts]⟩
  | .cons T arg rest, idx, _, _, _, _, _, _, _, ⟨hsame, q, harg, hrest⟩, hsigned, h => by
    obtain ⟨cast, p₁, t₁, calls₁, p₂, t₂, printed', calls', hout, hout', rfl, rfl, hhead⟩ :=
      Args.output_cons h
    rw [Args.types, ownCasts_drop] at hsigned
    obtain ⟨hcast, Ts₀, hmade, hmatch₀⟩ := headCast_printed hsame
      (fun c hc => hsigned c (List.mem_append_left _ hc)) hhead
    obtain ⟨rfl, -⟩ := arg.made_paired harg
    obtain ⟨Ts₁, hmade₁, hmatch₁⟩ := arg.output_casts harg hout
    obtain ⟨htypes, hcasts, Ts₂, hmade₂, hmatch₂⟩ := rest.output_casts (idx + 1) hrest
      (fun c hc => hsigned c (List.mem_append_right _ hc)) hout'
    have hmade₀₁ := makeCasts_append hmade hmade₁
    refine ⟨by rw [List.map_cons, htypes, Args.types], List.forall_mem_cons.mpr ⟨hcast, hcasts⟩,
      (Ts₀ ++ Ts₁) ++ Ts₂, ?_, ?_⟩
    · rw [Args.casts_cons hsame]
      exact makeCasts_append hmade₀₁ hmade₂
    · rw [Args.casts_cons hsame, signsMatch_append (length_makeCasts hmade₀₁),
        signsMatch_append (length_makeCasts hmade), hmatch₀, ← hmatch₁, ← hmatch₂,
        printedMatch_drop]
      simp only [List.mem_append, or_imp, forall_and]
      tauto

end

/-- **Every printed `abs_diff` of scalars has its casts right, and nothing is left
pending, exactly when the coins flipped in printing are those its arguments were
generated with.** Two arguments share a coin, which is pending from the first to the
second. -/
theorem casts_match_iff (h : e.Made {} p') (hout : e.output p' t = some ((calls, q), t')) :
    ((∀ c ∈ calls, c.Matches) ∧ q = {}) ↔ CoinsMatch e t := by
  obtain ⟨rfl, hsigned, hflip, hdemote⟩ := e.made_paired h
  obtain ⟨Ts, hcasts, hmatch⟩ := e.output_casts h hout
  have hq : q = {} := by
    refine convertAll_empty hcasts ?_ ?_
    · rwa [times_casts]
    · rwa [times_casts]
  obtain ⟨bs, hchoices, hbs⟩ := exists_signs hsigned hcasts
  subst hq
  have hcoins : bs = (signCoins false false (e.casts.map Cast.conversion) t).flatMap
      fun b => [b, b] := by
    simpa [Pending.sign] using hbs
  rw [hmatch, hchoices, hcoins, CoinsMatch]
  exact and_iff_left rfl

/-- `abs_diff` of two variables, all of them `uint`. -/
def absDiffUInt : Expr :=
  .builtIn .kAbsDiff (.simple .eUInt) (.cons (.simple .eUInt) (.leaf (.simple .eUInt))
    (.cons (.simple .eUInt) (.leaf (.simple .eUInt)) .nil))

theorem absDiffUInt_made : absDiffUInt.Made {} {} :=
  ⟨{}, [10, 60], [], by decide, rfl, {}, rfl, rfl, {}, rfl, rfl⟩

theorem casts_match_iff_uint : ((∀ c ∈ [PrintedCall.mk .kAbsDiff (.simple .eUInt)
      [(.simple .eUInt, some (.simple .eUInt)), (.simple .eUInt, some (.simple .eUInt))]],
        c.Matches) ∧ ({} : Pending) = {}) ↔ CoinsMatch absDiffUInt [60] :=
  casts_match_iff absDiffUInt_made (show absDiffUInt.output {} [60] = some (_, []) by decide)

/-- The coin comes up for the other sign in printing: both casts are to
`int`. -/
theorem not_casts_match : ¬∀ (e : Expr) (p' q : Pending) (t t' : Tape) (calls : List PrintedCall),
    e.Made {} p' → e.output p' t = some ((calls, q), t') →
      (∀ c ∈ calls, c.Matches) ∧ q = {} := by
  intro h
  have hout : absDiffUInt.output {} [0] = some (([⟨.kAbsDiff, .simple .eUInt,
      [(.simple .eUInt, some (.simple .eInt)), (.simple .eUInt, some (.simple .eInt))]⟩], {}),
        []) := by
    decide
  obtain ⟨hmatch, -⟩ := h _ _ _ _ _ _ absDiffUInt_made hout
  obtain ⟨T, hT⟩ := hmatch _ List.mem_cons_self rfl rfl
  have hhead := List.head_eq_of_cons_eq hT
  simp only [Prod.mk.injEq, Option.some.injEq] at hhead
  obtain ⟨rfl, hcast⟩ := hhead
  exact absurd hcast (by decide)

end Trees

end BuiltIn

end CLSmith
