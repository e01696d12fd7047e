import CLSmith.Random
import Mathlib.Data.PNat.Basic
/-!
# Vector expressions

`ExpressionVector::make_random`: a vector put together from parts, or taken
whole, and then itemised to the length of the type that was asked for. The
generators of the parts are parameters; a part of an element type is one
element long. The recursion on shorter vectors is on a fuel, of which there
need not be more than the length.
-/

namespace CLSmith

namespace ExpressionVector

/-- The lengths of vector types, `kSizes`. -/
def kSizes : List ℕ := [2, 4, 8, 16]

/-- **A type**: a simple type, or a vector of one. A length is positive where there is
one. -/
structure VType (τ : Type) where
  simpleType : τ
  vectorLength : Option ℕ+

/-- The elements of a type: one for a scalar. -/
def VType.length {τ : Type} (t : VType τ) : ℕ := (t.vectorLength.map PNat.val).getD 1

/-- `VectorExprType`. -/
inductive VectorExprType
  | kLiteral | kVariable | kSIMD | kBuiltIn
deriving DecidableEq

/-- `SuffixAccess`. -/
inductive SuffixAccess
  | kHi | kLo | kEven | kOdd
deriving DecidableEq

/-- How a vector is itemised: by one of the suffixes for a half of it, or by its
components. -/
inductive Access
  | suffix (s : SuffixAccess)
  | components (accesses : List ℕ)
deriving DecidableEq

/-- The elements an access selects; without components it is the whole vector. -/
def Access.selected (size : ℕ) : Access → ℕ
  | suffix _ => size / 2
  | components [] => size
  | components accesses => accesses.length

/-- The components an access names. -/
def Access.indices : Access → List ℕ
  | suffix _ => []
  | components accesses => accesses

/-- **An expression** as it stands in a vector: one element, a vector of another
generator, or an `ExpressionVector`, where the form is missing for the constant
that is cast. -/
inductive VecExpr (τ α : Type) where
  | element (e : α)
  | whole (e : α) (length : ℕ)
  | vector (form : Option VectorExprType) (type : VType τ) (size : ℕ)
      (exprs : List (VecExpr τ α)) (access : Access)

/-- The elements an expression has. -/
def VecExpr.length {τ α : Type} : VecExpr τ α → ℕ
  | element _ => 1
  | whole _ n => n
  | vector _ _ size _ access => access.selected size

/-- **The generators of the parts**, by the type they are asked for. They are what an
expression is made of where it is no vector. -/
structure Parts (τ α : Type) where
  constant : τ → Gen α
  element : τ → Gen α
  variableOf : τ → ℕ → Gen α
  expression : τ → ℕ → Gen α
  builtIn : τ → ℕ → Gen α

/-- `expr_depth` of the context, and the limit on it, below which a vector may be made
of others. -/
structure Depth where
  exprDepth : ℕ
  maxExprDepth : ℕ

/-- `size_idx + 1`, from `k - 1` on downwards. -/
def sizeIdx (max : ℕ) : ℕ → ℕ
  | 0 => 0
  | k + 1 => if kSizes.getD k 0 > max then sizeIdx max k else k + 1

/-- **`Vector::GetRandomVectorLength`.** The draw is among the lengths up to the
maximum, and a maximum of zero stands for the largest there is. -/
def getRandomVectorLength (max : ℕ) : Gen ℕ := do
  let max := if max = 0 then kSizes.getD (kSizes.length - 1) 0 else max
  let n := sizeIdx max kSizes.length
  if n = 0 then return 0
  let i ← rndUpto n fun _ => false
  Gen.ofOption kSizes[i]?

theorem pos_of_mem_kSizes {n : ℕ} (h : n ∈ kSizes) : 0 < n := by
  revert n
  decide

/-- `Vector::PromoteTypeToVectorType`, for a size; there are types of the lengths
in `kSizes`. -/
def promoteTypeToVectorType {τ : Type} (type : VType τ) (size : ℕ) : Option (VType τ) :=
  if type.vectorLength.map PNat.val = some size then some type
  else if h : size ∈ kSizes then some ⟨type.simpleType, some ⟨size, pos_of_mem_kSizes h⟩⟩
  else none

def vectorExprTable : DistributionTable :=
  (((DistributionTable.mk []).addEntry 0 10).addEntry 1 10 |>.addEntry 2 10).addEntry 3 10

def vectorExprType : ℕ → Option VectorExprType
  | 0 => some .kLiteral
  | 1 => some .kVariable
  | 2 => some .kSIMD
  | 3 => some .kBuiltIn
  | _ => none

def suffixTable : DistributionTable :=
  (((DistributionTable.mk []).addEntry 0 10).addEntry 1 10 |>.addEntry 2 10).addEntry 3 10

def suffixAccess : ℕ → Option SuffixAccess
  | 0 => some .kHi
  | 1 => some .kLo
  | 2 => some .kEven
  | 3 => some .kOdd
  | _ => none

/-- A draw of forty, looked up in a table. -/
def lookup {β : Type} (table : DistributionTable) (decode : ℕ → Option β) : Gen β := do
  let num ← rndUpto 40 fun _ => false
  Gen.ofOption (((VectorFilter.mk table []).lookup num).bind decode)

section Make

variable {τ α : Type} (P : Parts τ α)

/-- The loop that fills a literal of `size` elements, `remain` of them left, with
a bound on its rounds; `sub` makes the vectors in it. -/
def fill (sub : VType τ → ℕ → Gen (VecExpr τ α)) (type : VType τ) (size : ℕ) :
    ℕ → ℕ → Gen (List (VecExpr τ α))
  | 0, remain => if remain = 0 then pure [] else Gen.ofOption none
  | rounds + 1, remain =>
    if remain = 0 then pure []
    else do
      let num ← rndUpto 30 fun _ => false
      if remain ≤ 2 ∨ num < 10 then
        let e ← P.constant type.simpleType
        let es ← fill sub type size rounds (remain - 1)
        return .element e :: es
      else if num < 20 then
        let vecSize ← getRandomVectorLength (remain - if remain = size then 1 else 0)
        let subVecType ← Gen.ofOption (promoteTypeToVectorType type vecSize)
        let e ← sub subVecType vecSize
        let es ← fill sub type size rounds (remain - vecSize)
        return e :: es
      else
        let e ← P.element type.simpleType
        let es ← fill sub type size rounds (remain - 1)
        return .element e :: es

/-- A vector of `size` elements from one of the other generators. -/
def makeWhole (gen : τ → ℕ → Gen α) (type : VType τ) (size : ℕ) : Gen (List (VecExpr τ α)) := do
  let vecType ← Gen.ofOption (promoteTypeToVectorType type size)
  let e ← gen vecType.simpleType vecType.length
  return [.whole e vecType.length]

/-- So many component accesses. -/
def makeAccesses (size : ℕ) : ℕ → Gen (List ℕ)
  | 0 => pure []
  | n + 1 => do
    let a ← rndUpto size fun _ => false
    let as ← makeAccesses size n
    return a :: as

/-- The itemisation of a vector of `size` elements. -/
def makeAccess (size itemiseTo : ℕ) : Gen Access :=
  if size = itemiseTo * 2 then do
    let s ← lookup suffixTable suffixAccess
    return .suffix s
  else do
    let as ← makeAccesses size (itemiseTo - if size = itemiseTo then itemiseTo else 0)
    return .components as

/-- The length to make a vector of. -/
def chooseSize (size : ℕ) : Gen ℕ := if size = 0 then getRandomVectorLength 0 else pure size

/-- The parts of a vector of a form. -/
def makeExprs (sub : VType τ → ℕ → Gen (VecExpr τ α)) (type : VType τ) (size : ℕ) :
    VectorExprType → Gen (List (VecExpr τ α))
  | .kLiteral => fill P sub type size size size
  | .kVariable => makeWhole P.variableOf type size
  | .kSIMD => makeWhole P.expression type size
  | .kBuiltIn => makeWhole P.builtIn type size

/-- **`ExpressionVector::make_random`.** Near the limit on the depth of expressions it
is one constant in all components; else a form, a length and the way the vector is
itemised are drawn. -/
def makeRandom (cg : Depth) : ℕ → VType τ → ℕ → Gen (VecExpr τ α)
  | 0, _, _ => Gen.ofOption none
  | fuel + 1, type, size =>
    if cg.exprDepth + 2 > cg.maxExprDepth then do
      let n ← Gen.ofOption type.vectorLength
      let e ← P.constant type.simpleType
      return .vector none type n [.element e] (.components [])
    else do
      let size ← chooseSize size
      let vecExprType ← lookup vectorExprTable vectorExprType
      let exprs ← makeExprs P (makeRandom cg fuel) type size vecExprType
      let access ← makeAccess size type.length
      return .vector (some vecExprType) type size exprs access

end Make

/-! ## Lengths drawn -/

theorem sizeIdx_le (max k : ℕ) : sizeIdx max k ≤ k := by
  induction k with
  | zero => exact Nat.le_refl 0
  | succ k ih =>
    unfold sizeIdx
    split
    · omega
    · exact Nat.le_refl _

/-- The last length the index admits is no longer than the bound. -/
theorem getD_sizeIdx_le {max k j : ℕ} (h : sizeIdx max k = j + 1) : kSizes.getD j 0 ≤ max := by
  induction k with
  | zero => cases h
  | succ k ih =>
    unfold sizeIdx at h
    split at h
    · exact ih h
    · cases h
      omega

theorem sizeIdx_pos {max k : ℕ} (hmax : 2 ≤ max) (hk : 0 < k) : 0 < sizeIdx max k := by
  induction k with
  | zero => exact absurd hk (Nat.lt_irrefl 0)
  | succ k ih =>
    unfold sizeIdx
    split
    · next hgt =>
      refine ih (Nat.pos_of_ne_zero ?_)
      rintro rfl
      exact absurd hgt (not_lt.mpr hmax)
    · exact Nat.succ_pos k

/-- The lengths ascend. -/
theorem kSizes_mono {i j : ℕ} (hij : i ≤ j) (hj : j < kSizes.length) :
    kSizes.getD i 0 ≤ kSizes.getD j 0 := by
  have key : ∀ j < 4, ∀ i < 4, i ≤ j → kSizes.getD i 0 ≤ kSizes.getD j 0 := by decide
  exact key j hj i (Nat.lt_of_le_of_lt hij hj) hij

/-- **A drawn length** is one of a vector type, within the bound. -/
theorem getRandomVectorLength_spec {max v : ℕ} {t t' : Tape} (hmax : max = 0 ∨ 2 ≤ max)
    (h : getRandomVectorLength max t = some (v, t')) :
    v ∈ kSizes ∧ (max ≠ 0 → v ≤ max) := by
  unfold getRandomVectorLength at h
  obtain ⟨m, hm⟩ : ∃ m, m = if max = 0 then kSizes.getD (kSizes.length - 1) 0 else max := ⟨_, rfl⟩
  rw [← hm] at h
  have hm₂ : 2 ≤ m := by
    rw [hm]
    split
    · decide
    · omega
  have hpos := sizeIdx_pos hm₂ (k := kSizes.length) (by decide)
  rw [if_neg hpos.ne'] at h
  obtain ⟨i, t₁, hi, h⟩ := Gen.bind_eq_some.mp h
  obtain ⟨hget, -⟩ := Gen.ofOption_eq_some.mp h
  refine ⟨List.mem_of_getElem? hget, fun hne => ?_⟩
  have hlt := rndUpto_lt hpos hi
  have hle := sizeIdx_le m kSizes.length
  have hj : kSizes.getD (sizeIdx m kSizes.length - 1) 0 ≤ m :=
    getD_sizeIdx_le (k := kSizes.length) (by omega)
  have hmono := kSizes_mono (i := i) (j := sizeIdx m kSizes.length - 1) (by omega) (by omega)
  rw [List.getD_eq_getElem?_getD, hget, Option.getD_some] at hmono
  rw [if_neg hne] at hm
  omega

/-- The length that bounds the recursion. -/
def recursionBound (size : ℕ) : ℕ := if size = 0 then 16 else size

theorem chooseSize_spec {size size' : ℕ} {t t' : Tape}
    (h : chooseSize size t = some (size', t')) :
    0 < size' ∧ (size ≠ 0 → size' = size) ∧ size' ≤ recursionBound size := by
  unfold chooseSize at h
  unfold recursionBound
  split at h
  · next h0 =>
    have hmem := (getRandomVectorLength_spec (.inl rfl) h).1
    have hle : ∀ n ∈ kSizes, n ≤ 16 := by decide
    rw [if_pos h0]
    exact ⟨pos_of_mem_kSizes hmem, fun hne => absurd h0 hne, hle _ hmem⟩
  · next h0 =>
    cases h
    rw [if_neg h0]
    exact ⟨Nat.pos_of_ne_zero h0, fun _ => rfl, Nat.le_refl _⟩

theorem length_of_promote {τ : Type} {type vecType : VType τ} {size : ℕ}
    (h : promoteTypeToVectorType type size = some vecType) : vecType.length = size := by
  unfold promoteTypeToVectorType at h
  split at h
  · next hlen =>
    cases h
    unfold VType.length
    rw [hlen, Option.getD_some]
  · split at h
    · cases h
      rfl
    · cases h

/-! ## What is made -/

section WellFormed

variable {τ α : Type}

/-- A vector among the parts is shorter than `size`. -/
def VecExpr.Below (size : ℕ) : VecExpr τ α → Prop
  | element _ => True
  | whole _ _ => True
  | vector _ _ n _ _ => n < size

/-- **A well-formed expression**: the parts of a literal make up its length, the
components are in it, as many are selected as the type has elements, and the
vectors among the parts are shorter and well formed in turn; but a vector of
another generator stands alone. -/
inductive WellFormed : VecExpr τ α → Prop
  | element (e : α) : WellFormed (.element e)
  | whole (e : α) (n : ℕ) : WellFormed (.whole e n)
  | vector {form : Option VectorExprType} {type : VType τ} {size : ℕ}
      {exprs : List (VecExpr τ α)} {access : Access}
      (sum : form = some .kLiteral → (exprs.map VecExpr.length).sum = size)
      (indices : ∀ a ∈ access.indices, a < size)
      (selected : access.selected size = type.length)
      (shorter : ∀ e ∈ exprs, e.Below size) (parts : ∀ e ∈ exprs, WellFormed e) :
      WellFormed (.vector form type size exprs access)

variable {P : Parts τ α} {t t' : Tape}

theorem fill_spec {sub : VType τ → ℕ → Gen (VecExpr τ α)} {type : VType τ} {size : ℕ}
    (hsub : ∀ {ty n t e t'}, n ∈ kSizes → n < size → promoteTypeToVectorType type n = some ty →
      sub ty n t = some (e, t') → WellFormed e ∧ e.Below size ∧ e.length = n)
    {rounds remain : ℕ} {es : List (VecExpr τ α)} (hle : remain ≤ size)
    (h : fill P sub type size rounds remain t = some (es, t')) :
    (es.map VecExpr.length).sum = remain ∧ ∀ e ∈ es, WellFormed e ∧ e.Below size := by
  induction rounds generalizing remain es t with
  | zero =>
    unfold fill at h
    split at h
    · next h0 =>
      cases h
      exact ⟨h0.symm, fun e he => nomatch he⟩
    · cases h
  | succ rounds ih =>
    unfold fill at h
    split at h
    · next h0 =>
      cases h
      exact ⟨h0.symm, fun e he => nomatch he⟩
    · next hne =>
      obtain ⟨num, t₁, -, h⟩ := Gen.bind_eq_some.mp h
      split at h
      · obtain ⟨e, t₂, -, h⟩ := Gen.bind_eq_some.mp h
        obtain ⟨es, t₃, hes, h⟩ := Gen.bind_eq_some.mp h
        cases h
        obtain ⟨hsum, hall⟩ := ih (by omega) hes
        refine ⟨?_, List.forall_mem_cons.mpr ⟨⟨.element e, trivial⟩, hall⟩⟩
        rw [List.map_cons, List.sum_cons, hsum, VecExpr.length]
        omega
      · next hbig =>
        split at h
        · obtain ⟨n, t₂, hn, h⟩ := Gen.bind_eq_some.mp h
          obtain ⟨ty, t₃, hty, h⟩ := Gen.bind_eq_some.mp h
          obtain ⟨e, t₄, he, h⟩ := Gen.bind_eq_some.mp h
          obtain ⟨es, t₅, hes, h⟩ := Gen.bind_eq_some.mp h
          cases h
          -- three elements or more are left, and at the start a shorter vector is drawn
          have hbound : 2 ≤ remain - if remain = size then 1 else 0 := by
            split <;> omega
          obtain ⟨hmem, hnle⟩ := getRandomVectorLength_spec (.inr hbound) hn
          have hnle' := hnle (by omega)
          have hlt : n < size ∧ n ≤ remain := by
            split at hnle' <;> omega
          obtain ⟨hwf, hbelow, hlen⟩ := hsub hmem hlt.1 (Gen.ofOption_eq_some.mp hty).1 he
          obtain ⟨hsum, hall⟩ := ih (by omega) hes
          refine ⟨?_, List.forall_mem_cons.mpr ⟨⟨hwf, hbelow⟩, hall⟩⟩
          rw [List.map_cons, List.sum_cons, hsum, hlen]
          omega
        · obtain ⟨e, t₂, -, h⟩ := Gen.bind_eq_some.mp h
          obtain ⟨es, t₃, hes, h⟩ := Gen.bind_eq_some.mp h
          cases h
          obtain ⟨hsum, hall⟩ := ih (by omega) hes
          refine ⟨?_, List.forall_mem_cons.mpr ⟨⟨.element e, trivial⟩, hall⟩⟩
          rw [List.map_cons, List.sum_cons, hsum, VecExpr.length]
          omega

theorem makeWhole_spec {gen : τ → ℕ → Gen α} {type : VType τ} {size : ℕ}
    {es : List (VecExpr τ α)} (h : makeWhole gen type size t = some (es, t')) :
    ∀ e ∈ es, WellFormed e ∧ e.Below size := by
  obtain ⟨vecType, t₁, -, h⟩ := Gen.bind_eq_some.mp h
  obtain ⟨e, t₂, -, h⟩ := Gen.bind_eq_some.mp h
  cases h
  intro e' he'
  rw [List.mem_singleton.mp he']
  exact ⟨.whole e _, trivial⟩

theorem makeAccesses_spec {size n : ℕ} {as : List ℕ} (hsize : 0 < size)
    (h : makeAccesses size n t = some (as, t')) : as.length = n ∧ ∀ a ∈ as, a < size := by
  induction n generalizing as t with
  | zero =>
    cases h
    exact ⟨rfl, fun a ha => nomatch ha⟩
  | succ n ih =>
    obtain ⟨a, t₁, ha, h⟩ := Gen.bind_eq_some.mp h
    obtain ⟨as, t₂, has, h⟩ := Gen.bind_eq_some.mp h
    cases h
    obtain ⟨hlen, hall⟩ := ih has
    exact ⟨by rw [List.length_cons, hlen],
      List.forall_mem_cons.mpr ⟨rndUpto_lt hsize ha, hall⟩⟩

/-- **The itemisation selects what the type has**, from within the vector. -/
theorem makeAccess_spec {size itemiseTo : ℕ} {access : Access} (hsize : 0 < size)
    (hto : 0 < itemiseTo) (h : makeAccess size itemiseTo t = some (access, t')) :
    (∀ a ∈ access.indices, a < size) ∧ access.selected size = itemiseTo := by
  unfold makeAccess at h
  split at h
  · next htwice =>
    obtain ⟨s, t₁, -, h⟩ := Gen.bind_eq_some.mp h
    cases h
    refine ⟨(fun a ha => nomatch ha), ?_⟩
    show size / 2 = itemiseTo
    omega
  · obtain ⟨as, t₁, has, h⟩ := Gen.bind_eq_some.mp h
    cases h
    obtain ⟨hlen, hall⟩ := makeAccesses_spec hsize has
    refine ⟨hall, ?_⟩
    cases as with
    | nil =>
      -- nothing is selected where the vector has the length of the type
      rw [List.length_nil] at hlen
      show size = itemiseTo
      split at hlen <;> omega
    | cons a as =>
      show (a :: as).length = itemiseTo
      rw [hlen]
      split
      · next heq =>
        rw [if_pos heq, Nat.sub_self] at hlen
        cases hlen
      · omega

theorem VType.length_pos (type : VType τ) : 0 < type.length := by
  unfold VType.length
  cases type.vectorLength with
  | none => exact Nat.one_pos
  | some n => exact n.pos

/-- **What is made is well formed**, and as long as its type. -/
theorem makeRandom_spec {cg : Depth} {fuel : ℕ} {type : VType τ} {size : ℕ} {e : VecExpr τ α}
    (h : makeRandom P cg fuel type size t = some (e, t')) :
    WellFormed e ∧ e.length = type.length ∧ (type.length = size → ∀ k, size < k → e.Below k) := by
  induction fuel generalizing type size e t t' with
  | zero => cases h
  | succ fuel ih =>
    unfold makeRandom at h
    split at h
    -- too deep: one constant for all components
    · obtain ⟨n, t₁, hn, h⟩ := Gen.bind_eq_some.mp h
      obtain ⟨c, t₂, -, h⟩ := Gen.bind_eq_some.mp h
      cases h
      have hlen : type.length = n := by
        unfold VType.length
        rw [(Gen.ofOption_eq_some.mp hn).1]
        rfl
      refine ⟨.vector nofun nofun hlen.symm ?_ ?_, hlen.symm, ?_⟩
      · intro e he
        rw [List.mem_singleton.mp he]
        trivial
      · intro e he
        rw [List.mem_singleton.mp he]
        exact .element c
      · intro hsize k hk
        show (n : ℕ) < k
        omega
    · obtain ⟨size', t₁, hsize, h⟩ := Gen.bind_eq_some.mp h
      obtain ⟨form, t₂, -, h⟩ := Gen.bind_eq_some.mp h
      obtain ⟨exprs, t₃, hexprs, h⟩ := Gen.bind_eq_some.mp h
      obtain ⟨access, t₄, haccess, h⟩ := Gen.bind_eq_some.mp h
      cases h
      have hsize' := chooseSize_spec hsize
      obtain ⟨hindices, hselected⟩ := makeAccess_spec hsize'.1 type.length_pos haccess
      have hparts : (form = .kLiteral → (exprs.map VecExpr.length).sum = size') ∧
          ∀ e ∈ exprs, WellFormed e ∧ e.Below size' := by
        cases form with
        -- only a literal is made of vectors, each shorter than the whole
        | kLiteral =>
          refine (fill_spec ?_ (Nat.le_refl size') hexprs).imp_left fun hsum _ => hsum
          intro ty n t e t' _ hlt hty he
          have hlen := length_of_promote hty
          obtain ⟨hwf, helen, hbelow⟩ := ih he
          exact ⟨hwf, hbelow hlen size' hlt, helen.trans hlen⟩
        | kVariable => exact ⟨nofun, makeWhole_spec hexprs⟩
        | kSIMD => exact ⟨nofun, makeWhole_spec hexprs⟩
        | kBuiltIn => exact ⟨nofun, makeWhole_spec hexprs⟩
      refine ⟨.vector (fun hf => hparts.1 (Option.some.inj hf)) hindices hselected
        (fun e he => (hparts.2 e he).2) fun e he => (hparts.2 e he).1, hselected, ?_⟩
      intro hlen k hk
      have hpos := type.length_pos
      show size' < k
      have := hsize'.2.1 (by omega)
      omega

end WellFormed

/-! ## Fuel -/

section Fuel

variable {τ α : Type} {P : Parts τ α}

/-- A loop only asks for vectors shorter than its own. -/
theorem fill_congr {sub sub' : VType τ → ℕ → Gen (VecExpr τ α)} {type : VType τ} {size : ℕ}
    (hsub : ∀ ty n, 0 < n → n < size → sub ty n = sub' ty n) {rounds remain : ℕ}
    (hle : remain ≤ size) :
    fill P sub type size rounds remain = fill P sub' type size rounds remain := by
  induction rounds generalizing remain with
  | zero => rfl
  | succ rounds ih =>
    unfold fill
    by_cases h0 : remain = 0
    · rw [if_pos h0, if_pos h0]
    rw [if_neg h0, if_neg h0]
    funext t
    refine Gen.bind_congr fun num t₁ _ => ?_
    have hone : fill P sub type size rounds (remain - 1) =
        fill P sub' type size rounds (remain - 1) := ih (by omega)
    by_cases hsmall : remain ≤ 2 ∨ num < 10
    · rw [if_pos hsmall, if_pos hsmall, hone]
    rw [if_neg hsmall, if_neg hsmall]
    by_cases hvec : num < 20
    · rw [if_pos hvec, if_pos hvec]
      refine Gen.bind_congr fun n t₂ hn => ?_
      have hbound : 2 ≤ remain - if remain = size then 1 else 0 := by
        split <;> omega
      obtain ⟨hmem, hnle⟩ := getRandomVectorLength_spec (.inr hbound) hn
      have hnle' := hnle (by omega)
      have hpos := pos_of_mem_kSizes hmem
      have hlt : n < size := by
        split at hnle' <;> omega
      refine Gen.bind_congr fun ty t₃ _ => ?_
      rw [hsub ty n hpos hlt, ih (by omega)]
    · rw [if_neg hvec, if_neg hvec, hone]

/-- **The recursion ends**: more fuel than elements makes no difference. -/
theorem makeRandom_fuel {cg : Depth} {type : VType τ} {size fuel fuel' : ℕ}
    (h : recursionBound size < fuel) (h' : recursionBound size < fuel') :
    makeRandom P cg fuel type size = makeRandom P cg fuel' type size := by
  induction fuel generalizing type size fuel' with
  | zero => exact absurd h (Nat.not_lt_zero _)
  | succ fuel ih =>
    cases fuel' with
    | zero => exact absurd h' (Nat.not_lt_zero _)
    | succ fuel' =>
      unfold makeRandom
      by_cases hdeep : cg.exprDepth + 2 > cg.maxExprDepth
      · rw [if_pos hdeep, if_pos hdeep]
      rw [if_neg hdeep, if_neg hdeep]
      funext t
      refine Gen.bind_congr fun size' t₁ hsize => ?_
      obtain ⟨-, -, hle⟩ := chooseSize_spec hsize
      refine Gen.bind_congr fun form t₂ _ => ?_
      have hexprs : makeExprs P (makeRandom P cg fuel) type size' form =
          makeExprs P (makeRandom P cg fuel') type size' form := by
        cases form with
        | kLiteral =>
          refine fill_congr (fun ty n hpos hlt => ?_) (Nat.le_refl size')
          have hn : recursionBound n = n := if_neg hpos.ne'
          exact ih (by omega) (by omega)
        | kVariable => rfl
        | kSIMD => rfl
        | kBuiltIn => rfl
      rw [hexprs]

end Fuel

/-! ## Completion -/

section Completes

variable {τ α : Type} {P : Parts τ α} {type : VType τ} {size : ℕ}

/-- **Parts that complete**: their generators lack nothing but numbers. It is what is
asked of them for the whole to complete as well. -/
structure Parts.Completes (P : Parts τ α) : Prop where
  constant : ∀ s, Gen.Completes (P.constant s)
  element : ∀ s, Gen.Completes (P.element s)
  variableOf : ∀ s n, Gen.Completes (P.variableOf s n)
  expression : ∀ s n, Gen.Completes (P.expression s n)
  builtIn : ∀ s n, Gen.Completes (P.builtIn s n)

theorem completes_getRandomVectorLength {max : ℕ} (hmax : max = 0 ∨ 2 ≤ max) :
    Gen.Completes (getRandomVectorLength max) := by
  unfold getRandomVectorLength
  have hm : 2 ≤ if max = 0 then kSizes.getD (kSizes.length - 1) 0 else max := by
    split
    · decide
    · omega
  have hpos := sizeIdx_pos hm (k := kSizes.length) (by decide)
  have hle := sizeIdx_le (if max = 0 then kSizes.getD (kSizes.length - 1) 0 else max) kSizes.length
  simp only [if_neg hpos.ne']
  refine (Gen.Completes.rndUpto hpos rfl).bind fun t i t' hi => ?_
  have hlt := Nat.lt_of_lt_of_le (rndUpto_lt hpos hi) hle
  exact .ofOption (List.getElem?_eq_getElem hlt)

/-- Every draw of a table of forty has its key. -/
theorem completes_lookup {β : Type} {table : DistributionTable} {decode : ℕ → Option β}
    (h : ∀ num < 40, (((VectorFilter.mk table []).lookup num).bind decode).isSome) :
    Gen.Completes (lookup table decode) := by
  refine (Gen.Completes.rndUpto (Nat.zero_lt_succ 39) rfl).bind fun t num t' hnum => ?_
  obtain ⟨b, hb⟩ := Option.isSome_iff_exists.mp (h num (rndUpto_lt (Nat.zero_lt_succ 39) hnum))
  exact .ofOption hb

/-- There is a vector type of every length in `kSizes`. -/
theorem exists_promote (type : VType τ) (hsize : size ∈ kSizes) :
    ∃ vecType, promoteTypeToVectorType type size = some vecType ∧
      vecType.vectorLength.isSome := by
  unfold promoteTypeToVectorType
  split
  · next hlen =>
    refine ⟨type, rfl, ?_⟩
    cases hv : type.vectorLength with
    | none =>
      rw [hv] at hlen
      cases hlen
    | some n => rfl
  · exact ⟨⟨type.simpleType, some ⟨size, pos_of_mem_kSizes hsize⟩⟩, rfl, rfl⟩

theorem completes_fill {sub : VType τ → ℕ → Gen (VecExpr τ α)} (hP : P.Completes)
    (hsub : ∀ ty n, n ∈ kSizes → n < size → ty.vectorLength.isSome → Gen.Completes (sub ty n))
    {rounds remain : ℕ} (hle : remain ≤ size) (hrounds : remain ≤ rounds) :
    Gen.Completes (fill P sub type size rounds remain) := by
  induction rounds generalizing remain with
  | zero =>
    unfold fill
    rw [if_pos (Nat.le_zero.mp hrounds)]
    exact .pure []
  | succ rounds ih =>
    unfold fill
    split
    · exact .pure []
    have hone : Gen.Completes (fill P sub type size rounds (remain - 1)) :=
      ih (by omega) (by omega)
    refine (Gen.Completes.rndUpto (Nat.zero_lt_succ 29) rfl).bind fun t num t' _ => ?_
    split
    · exact (hP.constant _).bind fun _ e _ _ => hone.bind fun _ es _ _ => .pure _
    split
    · have hbound : 2 ≤ remain - if remain = size then 1 else 0 := by
        split <;> omega
      refine (completes_getRandomVectorLength (.inr hbound)).bind fun _ n _ hn => ?_
      obtain ⟨hmem, hnle⟩ := getRandomVectorLength_spec (.inr hbound) hn
      have hnle' := hnle (by omega)
      have hpos := pos_of_mem_kSizes hmem
      have hlt : n < size := by
        split at hnle' <;> omega
      obtain ⟨ty, hty, hsome⟩ := exists_promote type hmem
      refine (Gen.Completes.ofOption hty).bind fun _ ty' _ hty' => ?_
      obtain rfl : ty = ty' := Option.some.inj (hty.symm.trans (Gen.ofOption_eq_some.mp hty').1)
      exact (hsub ty n hmem hlt hsome).bind fun _ e _ _ =>
        (ih (by omega) (by omega)).bind fun _ es _ _ => .pure _
    · exact (hP.element _).bind fun _ e _ _ => hone.bind fun _ es _ _ => .pure _

theorem completes_makeWhole {gen : τ → ℕ → Gen α} (hgen : ∀ s n, Gen.Completes (gen s n))
    (hsize : size ∈ kSizes) : Gen.Completes (makeWhole gen type size) := by
  obtain ⟨ty, hty, -⟩ := exists_promote type hsize
  exact (Gen.Completes.ofOption hty).bind fun _ ty _ _ => (hgen _ _).bind fun _ e _ _ => .pure _

theorem completes_makeAccesses {n : ℕ} (hsize : 0 < size) :
    Gen.Completes (makeAccesses size n) := by
  induction n with
  | zero => exact .pure []
  | succ n ih =>
    exact (Gen.Completes.rndUpto hsize rfl).bind fun _ a _ _ => ih.bind fun _ as _ _ => .pure _

theorem completes_makeAccess {itemiseTo : ℕ} (hsize : 0 < size) :
    Gen.Completes (makeAccess size itemiseTo) := by
  unfold makeAccess
  split
  · exact (completes_lookup (by decide)).bind fun _ s _ _ => .pure _
  · exact (completes_makeAccesses hsize).bind fun _ as _ _ => .pure _

/-- **No assertion fails**, where the parts complete and the length is one of a
vector type; too deep, a vector must be asked for. -/
theorem completes_makeRandom {cg : Depth} {fuel : ℕ} (hP : P.Completes)
    (hsize : size = 0 ∨ size ∈ kSizes)
    (hdeep : cg.exprDepth + 2 > cg.maxExprDepth → type.vectorLength.isSome)
    (h : recursionBound size < fuel) : Gen.Completes (makeRandom P cg fuel type size) := by
  induction fuel generalizing type size with
  | zero => exact absurd h (Nat.not_lt_zero _)
  | succ fuel ih =>
    unfold makeRandom
    split
    · next hcg =>
      obtain ⟨n, hn⟩ := Option.isSome_iff_exists.mp (hdeep hcg)
      exact (Gen.Completes.ofOption hn).bind fun _ n _ _ =>
        (hP.constant _).bind fun _ e _ _ => .pure _
    have hchoose : Gen.Completes (chooseSize size) := by
      unfold chooseSize
      split
      · exact completes_getRandomVectorLength (.inl rfl)
      · exact .pure size
    refine hchoose.bind fun t size' t₁ hsize' => ?_
    obtain ⟨hpos, hkeep, hle⟩ := chooseSize_spec hsize'
    -- Drawn or given, the size is one of the OpenCL sizes.
    have hmem : size' ∈ kSizes := by
      rcases hsize with rfl | hsize
      · exact (getRandomVectorLength_spec (.inl rfl) hsize').1
      · rw [hkeep (pos_of_mem_kSizes hsize).ne']
        exact hsize
    refine (completes_lookup (by decide)).bind fun _ form _ _ => ?_
    refine Gen.Completes.bind ?_ fun _ exprs _ _ =>
      (completes_makeAccess hpos).bind fun _ access _ _ => .pure _
    cases form with
    | kLiteral =>
      refine completes_fill hP ?_ (Nat.le_refl size') (Nat.le_refl size')
      intro ty n hn hlt hsome
      -- An element of a literal is shorter than the literal, so the bound goes down.
      have hrec : recursionBound n = n := if_neg (pos_of_mem_kSizes hn).ne'
      exact ih (.inr hn) (fun _ => hsome) (by omega)
    | kVariable => exact completes_makeWhole hP.variableOf hmem
    | kSIMD => exact completes_makeWhole hP.expression hmem
    | kBuiltIn => exact completes_makeWhole hP.builtIn hmem

/-- **Vector expressions keep their length.** Every expression made is well
formed and as long as its type; the recursion on shorter vectors ends, and where
the parts complete so does the whole. -/
theorem makeRandom_wellFormed (P : Parts τ α) (cg : Depth) (type : VType τ) {size fuel : ℕ}
    (h : recursionBound size < fuel) :
    (∀ t e t', makeRandom P cg fuel type size t = some (e, t') →
      WellFormed e ∧ e.length = type.length) ∧
    (∀ fuel', recursionBound size < fuel' →
      makeRandom P cg fuel' type size = makeRandom P cg fuel type size) ∧
    (P.Completes → size = 0 ∨ size ∈ kSizes →
      (cg.exprDepth + 2 > cg.maxExprDepth → type.vectorLength.isSome) →
      Gen.Completes (makeRandom P cg fuel type size)) := by
  refine ⟨fun t e t' he => ?_, fun fuel' h' => makeRandom_fuel h' h,
    fun hP hsize hdeep => completes_makeRandom hP hsize hdeep h⟩
  obtain ⟨hwf, hlen, -⟩ := makeRandom_spec he
  exact ⟨hwf, hlen⟩

/-- A literal of four elements, of parts that are their lengths. -/
theorem makeRandom_wellFormed_literal :
    (∀ t e t', makeRandom (⟨fun _ => pure 1, fun _ => pure 1, fun _ n => pure n, fun _ n => pure n,
        fun _ n => pure n⟩ : Parts Unit ℕ) ⟨0, 10⟩ 17 ⟨(), some 4⟩ 4 t = some (e, t') →
      WellFormed e ∧ e.length = (⟨(), some 4⟩ : VType Unit).length) ∧
    (makeRandom (⟨fun _ => pure 1, fun _ => pure 1, fun _ n => pure n, fun _ n => pure n,
        fun _ n => pure n⟩ : Parts Unit ℕ) ⟨0, 10⟩ 17 ⟨(), some 4⟩ 4
        [0, 12, 0, 0, 0, 0, 0, 0, 0, 0]).isSome := by
  refine ⟨fun t e t' he => ?_, by decide⟩
  have hbound : recursionBound 4 < 17 := by decide
  exact (makeRandom_wellFormed _ ⟨0, 10⟩ ⟨(), some 4⟩ hbound).1 t e t' he

end Completes

end ExpressionVector

end CLSmith
