import CLSmith.TypeTable.Output
import Mathlib.Data.List.Pairwise
/-!
# What is in the tables

Whatever is drawn, an aggregate is made of what was there before it, is nested
no deeper than allowed, and has bit-fields as C wants them. So `Type`s are
built bottom up, and their definitions can be written in order.
-/

namespace CLSmith

namespace TypeTable

open BuiltIn (SimpleType)
open Common (Chronicle)

variable {o : Options} {σ σ' : State} {l l' : List Typ} {fs fs' : Fields} {t f : Typ} {sid : ℕ}
variable {st : SimpleType} {n : ℕ}

/-! ## Fields -/

/-- **A field that may be in a struct or union**: a bit-field, or of a type that is
there, or in a union a `char*`. -/
def FieldOk (o : Options) (l : List Typ) (union : Bool) (f : Typ) (length : ℤ) : Prop :=
  (0 ≤ length ∧ length < 8 * o.intSize ∧ f ∈ l ∧
    (f.isSimple .eInt = true ∨ f.isSimple .eUInt = true)) ∨
  (length = -1 ∧ f ∈ l ∧ f.isUnion = false ∧ (union = true → f.hasBitfields = false)) ∨
  (length = -1 ∧ union = true ∧ ∃ a c, f = .pointer a c ∧ c ∈ l ∧ c.isSimple .eChar = true)

/-- No bit-field of length zero comes first or after another one. -/
def ZerosOk (lengths : List ℤ) : Prop :=
  Chronicle (fun pre len => len = 0 → pre ≠ [] ∧ pre.getLast? ≠ some 0) lengths

/-- **What holds of the fields**, so far. Each has its qualifiers and its length, and
is a type that may be a field after the types in `l`. -/
structure FieldsOk (o : Options) (l : List Typ) (union : Bool) (fs : Fields) : Prop where
  qualifiers : fs.qualifiers.length = fs.types.length
  lengths : fs.lengths.length = fs.types.length
  zeros : ZerosOk fs.lengths
  ok : ∀ p ∈ fs.types.zip fs.lengths, FieldOk o l union p.1 p.2
  shallow : union = false → ∀ f ∈ fs.types, f.getStructDepth < max 1 o.maxNestedStructLevel

variable {union : Bool}

theorem FieldOk.mono {length : ℤ} (h : FieldOk o l union f length) (hl : l ⊆ l') :
    FieldOk o l' union f length := by
  rcases h with ⟨h0, hlt, hin, hint⟩ | ⟨h1, hin, hrest⟩ | ⟨h1, hu, a, c, rfl, hin, hchar⟩
  · exact .inl ⟨h0, hlt, hl hin, hint⟩
  · exact .inr (.inl ⟨h1, hl hin, hrest⟩)
  · exact .inr (.inr ⟨h1, hu, a, c, rfl, hl hin, hchar⟩)

theorem FieldsOk.mono (h : FieldsOk o l union fs) (hl : l ⊆ l') : FieldsOk o l' union fs :=
  ⟨h.qualifiers, h.lengths, h.zeros, fun p hp => (h.ok p hp).mono hl, h.shallow⟩

theorem FieldsOk.nil : FieldsOk o l union {} :=
  ⟨rfl, rfl, Chronicle.nil, fun _ h => absurd h List.not_mem_nil,
    fun _ _ h => absurd h List.not_mem_nil⟩

theorem FieldsOk.push (h : FieldsOk o l union fs) {q : CVQualifiers} {length : ℤ}
    (hzero : length = 0 → fs.lengths ≠ [] ∧ fs.lengths.getLast? ≠ some 0)
    (hok : FieldOk o l union f length)
    (hdepth : union = false → f.getStructDepth < max 1 o.maxNestedStructLevel) :
    FieldsOk o l union (fs.push f q length) where
  qualifiers := by simp [Fields.push, h.qualifiers]
  lengths := by simp [Fields.push, h.lengths]
  zeros := Chronicle.snoc_iff.mpr ⟨h.zeros, hzero⟩
  ok := by
    intro p hp
    rw [Fields.push, List.zip_append h.lengths.symm] at hp
    rcases List.mem_append.mp hp with hold | hlast
    · exact h.ok p hold
    · obtain rfl := List.mem_singleton.mp hlast
      exact hok
  shallow := by
    intro hu f' hf'
    rcases List.mem_append.mp hf' with hold | hlast
    · exact h.shallow hu f' hold
    · rw [List.mem_singleton.mp hlast]
      exact hdepth hu

/-- A bit-field is not as long as an `int`, and of length zero only where that is
allowed. -/
theorem bitfieldLength_spec {d : BitfieldDraw} {lengths : List ℤ} {length : ℕ}
    (h : bitfieldLength o d lengths = some length) :
    length < 8 * o.intSize ∧ (length = 0 → lengths ≠ [] ∧ lengths.getLast? ≠ some 0) := by
  unfold bitfieldLength at h
  dsimp only at h
  split at h
  · exact absurd h (by simp)
  · next hlt =>
    split at h
    · split at h
      · obtain rfl := Option.some.inj h
        exact ⟨by omega, by omega⟩
      · split at h
        · exact absurd h (by simp)
        · obtain rfl := Option.some.inj h
          exact ⟨by omega, by omega⟩
    · next hzero =>
      obtain rfl := Option.some.inj h
      refine ⟨by omega, fun h0 => ?_⟩
      simp only [h0, true_and, Bool.or_eq_true, decide_eq_true_eq, not_or, List.isEmpty_iff]
        at hzero
      exact hzero

theorem depth_of_filter (h : chooseRandomTypeFilter o true t = false) :
    t.getStructDepth < max 1 o.maxNestedStructLevel := by
  have hzero : 0 < max 1 o.maxNestedStructLevel :=
    lt_of_lt_of_le Nat.zero_lt_one (le_max_left _ _)
  cases t with
  | simple => exact hzero
  | pointer => exact hzero
  | other => exact hzero
  | aggregate =>
    simp only [chooseRandomTypeFilter, Bool.or_eq_false_iff, Bool.true_and,
      decide_eq_false_iff_not, not_le] at h
    exact lt_of_lt_of_le h.2 (le_max_right _ _)

theorem exists_of_isSimple (h : t.isSimple st = true) : ∃ a, t = .simple a st := by
  cases t with
  | simple a s =>
    obtain rfl : s = st := by simpa [Typ.isSimple] using h
    exact ⟨a, rfl⟩
  | pointer => exact absurd h Bool.false_ne_true
  | aggregate => exact absurd h Bool.false_ne_true
  | other => exact absurd h Bool.false_ne_true

/-! ## The tables -/

/-- **A struct or union as it may stand after the types before it**: its fields are
among these, as many as the options allow, and nested no deeper than these say. -/
structure Aggregate (o : Options) (l : List Typ) (t : Typ) : Prop where
  fresh : ∀ u ∈ l, ¬ u.SameSid t
  qualifiers : t.qfers.length = t.fields.length
  lengths : t.bitfieldsLength.length = t.fields.length
  count : t.fields.length ≤ if t.isUnion then o.maxUnionFields else o.maxStructFields
  nonempty : t.isUnion = true ∨ 0 < o.maxStructFields → t.fields ≠ []
  zeros : ZerosOk t.bitfieldsLength
  ok : ∀ p ∈ t.fields.zip t.bitfieldsLength, FieldOk o l t.isUnion p.1 p.2
  depth : t.getStructDepth ≤ max 1 o.maxNestedStructLevel

/-- What comes next in `AllTypes`. -/
def Next (o : Options) (l : List Typ) (t : Typ) : Prop :=
  (∀ u ∈ l, u.same t = false) ∧
    ((∃ a s, t = .simple a s) ∨ t.isAggregate = true ∧ Aggregate o l t)

/-- What comes next in `derived_types`: a pointer type to what none points to so far. -/
def NextDerived (l : List Typ) (d : Typ) : Prop :=
  (∀ u ∈ l, u.same d = false) ∧ ∃ a t, d = .pointer a t ∧ ∀ u ∈ l, Typ.pointsTo t u = false

theorem maxStructDepth_le {ts : List Typ} (h : ∀ t ∈ ts, t.getStructDepth < n)
    (hn : 0 < n) : Typ.maxStructDepth ts < n := by
  induction ts with
  | nil => exact hn
  | cons t ts ih =>
    rw [Typ.maxStructDepth]
    have hfirst := h t List.mem_cons_self
    have hrest := ih fun u hu => h u (List.mem_cons_of_mem _ hu)
    omega

/-- What a pointer type may be asked for: a type of a table, or one that is in none. -/
def State.Known (σ : State) (t : Typ) : Prop :=
  t ∈ σ.allTypes ∨ t ∈ σ.derivedTypes ∨ ∃ a, t = .other a

/-- **The invariant of the tables.** Each entry of `AllTypes` stands right after those
before it, the addresses and numbers given out are below the next ones, and pointer
types point to what is known. -/
structure Inv (o : Options) (σ : State) : Prop where
  allTypes : Chronicle (Next o) σ.allTypes
  sids : ∀ t ∈ σ.allTypes, ∀ sid, t.hasSid sid = true → sid < σ.sequence
  simple : ∀ a s, .simple a s ∈ σ.allTypes → a < σ.addresses
  pointer : ∀ a t, .pointer a t ∈ σ.derivedTypes → a < σ.addresses
  structs : σ.phase = .early ∨ σ.phase = .structs → ∀ t ∈ σ.allTypes, t.isUnion = false
  simpleTypes : ∀ st t, σ.simpleTypes st = some t → t ∈ σ.allTypes ∧ t.isSimple st = true
  derived : Chronicle NextDerived σ.derivedTypes
  pointees : ∀ a t, .pointer a t ∈ σ.derivedTypes → σ.Known t

namespace Inv

theorem start : Inv o {} where
  allTypes := Chronicle.nil
  sids _ h := absurd h List.not_mem_nil
  simple _ _ h := absurd h List.not_mem_nil
  pointer _ _ h := absurd h List.not_mem_nil
  structs _ _ h := absurd h List.not_mem_nil
  simpleTypes _ _ h := absurd h (by simp)
  derived := Chronicle.nil
  pointees _ _ h := absurd h List.not_mem_nil

theorem pushSimple (h : Inv o σ) (st : SimpleType) : Inv o (σ.pushSimple st) := by
  have hfresh : ∀ u ∈ σ.allTypes, u.same (.simple σ.addresses st) = false := by
    intro u hu
    cases u with
    | simple a s => exact decide_eq_false (Nat.ne_of_lt (h.simple a s hu))
    | pointer => rfl
    | aggregate => rfl
    | other => rfl
  refine ⟨Chronicle.snoc_iff.mpr ⟨h.allTypes, hfresh, .inl ⟨_, st, rfl⟩⟩, ?_, ?_, ?_, ?_, ?_,
    h.derived, fun a t hin => (h.pointees a t hin).imp_left (List.mem_append_left _)⟩
  · intro t ht sid hsid
    rcases List.mem_append.mp ht with hold | hlast
    · exact h.sids t hold sid hsid
    · rw [List.mem_singleton.mp hlast] at hsid
      exact absurd hsid Bool.false_ne_true
  · intro a s hin
    change a < σ.addresses + 1
    rcases List.mem_append.mp hin with hold | hlast
    · exact Nat.lt_succ_of_lt (h.simple a s hold)
    · cases List.mem_singleton.mp hlast
      exact Nat.lt_succ_self _
  · exact fun a t hin => Nat.lt_succ_of_lt (h.pointer a t hin)
  · intro hp t ht
    rcases List.mem_append.mp ht with hold | hlast
    · exact h.structs hp t hold
    · rw [List.mem_singleton.mp hlast]
      rfl
  · intro st' t hst
    obtain ⟨hin, hsimple⟩ := h.simpleTypes st' t hst
    exact ⟨List.mem_append_left _ hin, hsimple⟩

/-- A simple type is remembered. -/
theorem remember (h : Inv o σ) (hin : t ∈ σ.allTypes) (hsimple : t.isSimple st = true) :
    Inv o { σ with simpleTypes := Function.update σ.simpleTypes st (some t) } := by
  refine ⟨h.allTypes, h.sids, h.simple, h.pointer, h.structs, fun st' u hu => ?_, h.derived,
    h.pointees⟩
  change Function.update σ.simpleTypes st (some t) st' = some u at hu
  by_cases hst : st' = st
  · subst hst
    rw [Function.update_self] at hu
    obtain rfl := Option.some.inj hu
    exact ⟨hin, hsimple⟩
  · rw [Function.update_of_ne hst] at hu
    exact h.simpleTypes st' u hu

theorem simple_or_aggregate (h : Inv o σ) (ht : t ∈ σ.allTypes) :
    (∃ a s, t = .simple a s) ∨ t.isAggregate = true := by
  obtain ⟨pre, -, -, hnext⟩ := h.allTypes.exists_before ht
  exact hnext.imp_right And.left

/-- **An object stands in the table once.** -/
theorem eq_of_same (h : Inv o σ) (ht : t ∈ σ.allTypes) (hf : f ∈ σ.allTypes)
    (hsame : t.same f = true) : t = f := by
  by_contra hne
  have hsymm : ∀ t u : Typ, t.same u = u.same t := by
    intro t u
    cases t <;> cases u <;> simp [Typ.same, eq_comm]
  have hpair : σ.allTypes.Pairwise fun t u => t.same u = false :=
    Chronicle.pairwise (h.allTypes.mono fun pre u hu w hw => hu.1 w hw)
  have hns : Std.Symm fun t u : Typ => t.same u = false := ⟨fun t u hns => hsymm u t ▸ hns⟩
  rw [hpair.forall ht hf hne] at hsame
  exact absurd hsame Bool.false_ne_true

theorem eq_of_same_known (h : Inv o σ) (ht : σ.Known t) (hf : f ∈ σ.allTypes)
    (hsame : t.same f = true) : t = f := by
  rcases ht with ht | ht | ⟨a, rfl⟩
  · exact h.eq_of_same ht hf hsame
  · obtain ⟨pre, -, -, a, u, rfl, -⟩ := h.derived.exists_before ht
    rcases h.simple_or_aggregate hf with ⟨a, s, rfl⟩ | hagg
    · exact absurd hsame Bool.false_ne_true
    · cases f with
      | aggregate => exact absurd hsame Bool.false_ne_true
      | simple => exact absurd hagg Bool.false_ne_true
      | pointer => exact absurd hagg Bool.false_ne_true
      | other => exact absurd hagg Bool.false_ne_true
  · rcases h.simple_or_aggregate hf with ⟨a, s, rfl⟩ | hagg
    · exact absurd hsame Bool.false_ne_true
    · cases f with
      | aggregate => exact absurd hsame Bool.false_ne_true
      | simple => exact absurd hagg Bool.false_ne_true
      | pointer => exact absurd hagg Bool.false_ne_true
      | other => exact absurd hagg Bool.false_ne_true

end Inv

/-- Types are added, and nothing else happens: those that are there stay, and the
phase does. -/
structure Grows (σ σ' : State) : Prop where
  allTypes : σ.allTypes ⊆ σ'.allTypes
  phase : σ'.phase = σ.phase

theorem Grows.refl (σ : State) : Grows σ σ := ⟨List.Subset.refl _, rfl⟩

/-- **`get_simple_type`** returns a type of the table, of the kind it was asked for. -/
theorem getSimpleType_spec (h : Inv o σ) (st : SimpleType) :
    Inv o (σ.getSimpleType st).2 ∧ Grows σ (σ.getSimpleType st).2 ∧
      (σ.getSimpleType st).1 ∈ (σ.getSimpleType st).2.allTypes ∧
      (σ.getSimpleType st).1.isSimple st = true := by
  unfold State.getSimpleType
  split
  · next t ht => exact ⟨h, .refl σ, h.simpleTypes st t ht⟩
  · split
    · next t ht =>
      obtain ⟨hin, hsimple⟩ := List.mem_filter.mp (List.mem_of_getLast? ht)
      exact ⟨h.remember hin hsimple, ⟨List.Subset.refl _, rfl⟩, hin, hsimple⟩
    · have hin : Typ.simple σ.addresses st ∈ (σ.pushSimple st).allTypes :=
        List.mem_append_right _ (List.mem_singleton_self _)
      have hsimple : (Typ.simple σ.addresses st).isSimple st = true := by simp [Typ.isSimple]
      exact ⟨(h.pushSimple st).remember hin hsimple, ⟨List.subset_append_left _ _, rfl⟩, hin,
        hsimple⟩

/-- **`find_pointer_type`** adds a pointer type only where there is none. -/
theorem findPointerType_spec (h : Inv o σ) (ht : σ.Known t) :
    Inv o (σ.findPointerType t).2 ∧ (σ.findPointerType t).2.allTypes = σ.allTypes ∧
      (σ.findPointerType t).2.phase = σ.phase ∧
      (t ∈ σ.allTypes → ∃ a, (σ.findPointerType t).1 = .pointer a t) := by
  unfold State.findPointerType
  split
  · next d hd =>
    refine ⟨h, rfl, rfl, fun hin => ?_⟩
    have hpoints : Typ.pointsTo t d = true := List.find?_some hd
    cases d with
    | pointer a t' =>
      have hknown := h.pointees a t' (List.mem_of_find?_eq_some hd)
      obtain rfl := h.eq_of_same_known hknown hin hpoints
      exact ⟨a, rfl⟩
    | simple => exact absurd hpoints Bool.false_ne_true
    | aggregate => exact absurd hpoints Bool.false_ne_true
    | other => exact absurd hpoints Bool.false_ne_true
  · next hnone =>
    refine ⟨?_, rfl, rfl, fun _ => ⟨_, rfl⟩⟩
    have hfresh : ∀ u ∈ σ.derivedTypes, u.same (.pointer σ.addresses t) = false := by
      intro u hu
      cases u with
      | pointer a t' => exact decide_eq_false (Nat.ne_of_lt (h.pointer a t' hu))
      | simple => rfl
      | aggregate => rfl
      | other => rfl
    -- the search has failed, so that none of the derived types points to it
    have hnew : ∀ u ∈ σ.derivedTypes, Typ.pointsTo t u = false := fun u hu =>
      Bool.eq_false_iff.mpr (List.find?_eq_none.mp hnone u hu)
    have hkeep : ∀ {u}, σ.Known u → (u ∈ σ.allTypes ∨
        u ∈ σ.derivedTypes ++ [Typ.pointer σ.addresses t] ∨ ∃ a, u = .other a) :=
      fun hu => hu.imp_right (Or.imp_left (List.mem_append_left _))
    refine ⟨h.allTypes, h.sids, fun a s hin => Nat.lt_succ_of_lt (h.simple a s hin), ?_, h.structs,
      h.simpleTypes, Chronicle.snoc_iff.mpr ⟨h.derived, hfresh, _, t, rfl, hnew⟩, ?_⟩
    · intro a u hin
      change a < σ.addresses + 1
      rcases List.mem_append.mp hin with hold | hlast
      · exact Nat.lt_succ_of_lt (h.pointer a u hold)
      · cases List.mem_singleton.mp hlast
        exact Nat.lt_succ_self _
    · intro a u hin
      rcases List.mem_append.mp hin with hold | hlast
      · exact hkeep (h.pointees a u hold)
      · cases List.mem_singleton.mp hlast
        exact hkeep ht

/-- **Fields are being made** of a struct or union: `n` so far. The tables may grow in
between, as a field asks for simple types and pointer types. -/
structure Making (o : Options) (union : Bool) (ph : Phase) (n : ℕ) (σ : State) (fs : Fields) :
    Prop where
  inv : Inv o σ
  phase : σ.phase = ph
  fields : FieldsOk o σ.allTypes union fs
  count : fs.types.length = n

variable {ph : Phase}

namespace Making

/-- A field of a type of the table. -/
theorem push (h : Making o union ph n σ fs) {q : CVQualifiers} (hin : t ∈ σ.allTypes)
    (hunion : t.isUnion = false) (hbits : union = true → t.hasBitfields = false)
    (hdepth : union = false → t.getStructDepth < max 1 o.maxNestedStructLevel) :
    Making o union ph (n + 1) σ (fs.push t q (-1)) := by
  refine ⟨h.inv, h.phase, h.fields.push (by omega) (.inr (.inl ⟨rfl, hin, hunion, hbits⟩)) hdepth,
    ?_⟩
  simp [Fields.push, h.count]

theorem bitfield {d : BitfieldDraw} (h : Making o union ph n σ fs)
    (hmake : makeOneBitfield o d σ fs = some (σ', fs')) : Making o union ph (n + 1) σ' fs' := by
  obtain ⟨length, hlength, hmake⟩ := Option.map_eq_some_iff.mp hmake
  cases hmake
  obtain ⟨hlt, hzero⟩ := bitfieldLength_spec hlength
  obtain ⟨hinv, hgrows, hin, hsimple⟩ := getSimpleType_spec h.inv (if d.sign then .eInt else .eUInt)
  refine ⟨hinv, hgrows.phase.trans h.phase, ?_, by simp [Fields.push, h.count]⟩
  have hint : ∀ {t : Typ}, t.isSimple (if d.sign then .eInt else .eUInt) = true →
      t.isSimple .eInt = true ∨ t.isSimple .eUInt = true := by
    cases d.sign <;> simp +contextual
  refine (h.fields.mono hgrows.allTypes).push (by exact_mod_cast hzero)
    (.inl ⟨by omega, by exact_mod_cast hlt, hin, hint hsimple⟩) fun _ => ?_
  obtain ⟨a, ha⟩ := exists_of_isSimple hsimple
  rw [ha]
  exact lt_of_lt_of_le Nat.zero_lt_one (le_max_left _ _)

theorem structField {d : FieldDraw} (h : Making o false .structs n σ fs)
    (hmake : makeStructField o d σ fs = some (σ', fs')) :
    Making o false .structs (n + 1) σ' fs' := by
  cases d with
  | bitfield d =>
    obtain ⟨-, hmake⟩ := Option.ite_none_right_eq_some.mp hmake
    exact h.bitfield hmake
  | field i q =>
    simp only [makeStructField, makeOneStructField] at hmake
    split at hmake
    · next t ht =>
      obtain ⟨hfilter, hmake⟩ := Option.ite_none_left_eq_some.mp hmake
      cases hmake
      have hin := List.mem_of_getElem? ht
      exact h.push hin (h.inv.structs (.inr h.phase) t hin) (fun hf => absurd hf (by simp))
        fun _ => depth_of_filter (Bool.eq_false_iff.mpr hfilter)
    · exact absurd hmake (by simp)

theorem unionField {d : UnionFieldDraw} (h : Making o true ph n σ fs)
    (hmake : makeOneUnionField o d σ fs = some (σ', fs')) : Making o true ph (n + 1) σ' fs' := by
  -- one of the types without bit-fields
  have hfield : ∀ {t : Typ} {q : CVQualifiers}, t ∈ σ.allTypes.filter (fun t => !t.hasBitfields) →
      t.isUnion = false → Making o true ph (n + 1) σ (fs.push t q (-1)) := by
    intro t q ht hunion
    obtain ⟨hin, hbits⟩ := List.mem_filter.mp ht
    exact h.push hin hunion (fun _ => by simpa using hbits) fun hf => absurd hf (by simp)
  cases d with
  | bitfield d =>
    obtain ⟨-, hmake⟩ := Option.ite_none_right_eq_some.mp hmake
    exact h.bitfield hmake
  | struct i q =>
    simp only [makeOneUnionField] at hmake
    split at hmake
    · next t ht =>
      cases hmake
      obtain ⟨hin, hstruct⟩ := List.mem_filter.mp (List.mem_of_getElem? ht)
      refine hfield hin ?_
      cases t with
      | aggregate => simpa [Typ.isUnion, Typ.isStruct] using hstruct
      | simple => rfl
      | pointer => rfl
      | other => rfl
    · exact absurd hmake (by simp)
  | charPointer q =>
    obtain ⟨-, hmake⟩ := Option.ite_none_right_eq_some.mp hmake
    cases hmake
    obtain ⟨hinv, hgrows, hin, hsimple⟩ := getSimpleType_spec h.inv .eChar
    obtain ⟨hinv', hall, hphase, hpointer⟩ := findPointerType_spec hinv (.inl hin)
    obtain ⟨a, ha⟩ := hpointer hin
    refine ⟨hinv', hphase.trans (hgrows.phase.trans h.phase), ?_, by simp [Fields.push, h.count]⟩
    rw [hall]
    exact (h.fields.mono hgrows.allTypes).push (by omega)
      (.inr (.inr ⟨rfl, rfl, a, _, ha, hin, hsimple⟩)) fun hf => absurd hf (by simp)
  | other i q =>
    simp only [makeOneUnionField] at hmake
    split at hmake
    · next a s hs =>
      obtain ⟨-, hmake⟩ := Option.ite_none_left_eq_some.mp hmake
      cases hmake
      exact hfield (List.mem_of_getElem? hs) rfl
    · next t _ ht =>
      obtain ⟨hunion, hmake⟩ := Option.ite_none_left_eq_some.mp hmake
      cases hmake
      exact hfield (List.mem_of_getElem? ht) (Bool.eq_false_iff.mpr hunion)
    · exact absurd hmake (by simp)

end Making

/-- The fields one after the other. -/
theorem makeFields_spec {δ : Type} {one : δ → State → Fields → Option (State × Fields)}
    (hone : ∀ d n σ fs σ' fs', Making o union ph n σ fs → one d σ fs = some (σ', fs') →
      Making o union ph (n + 1) σ' fs') {ds : List δ} (h : Making o union ph n σ fs)
    (hmake : makeFields one ds σ fs = some (σ', fs')) :
    Making o union ph (n + ds.length) σ' fs' := by
  induction ds generalizing n σ fs with
  | nil =>
    cases hmake
    exact h
  | cons d ds ih =>
    obtain ⟨⟨σ₁, fs₁⟩, hd, hrest⟩ := Option.bind_eq_some_iff.mp hmake
    have := ih (hone d n σ fs σ₁ fs₁ h hd) hrest
    rwa [List.length_cons, Nat.add_comm ds.length, ← Nat.add_assoc]

/-- A new struct or union. -/
theorem Making.pushAggregate (h : Making o union ph n σ fs) {packed : Bool}
    (hcount : n ≤ if union then o.maxUnionFields else o.maxStructFields)
    (hne : union = true ∨ 0 < o.maxStructFields → 0 < n)
    (hphase : union = true → ph ≠ .early ∧ ph ≠ .structs) :
    Inv o (σ.pushAggregate (!union) packed fs) := by
  obtain ⟨hinv, rfl, hfields, rfl⟩ := h
  have hunion : (Typ.aggregate σ.sequence (!union) packed fs.types fs.qualifiers
      fs.lengths).isUnion = union := by
    cases union <;> rfl
  -- the sequence number is above all that were handed out
  have hfresh : ∀ u ∈ σ.allTypes, ∀ t : Typ, t.hasSid σ.sequence = true → ¬ u.SameSid t := by
    rintro u hu t ht ⟨sid, hsid, hsid'⟩
    have hlt := hinv.sids u hu sid hsid
    cases t with
    | aggregate =>
      obtain rfl := Typ.hasSid_aggregate.mp ht
      obtain rfl := Typ.hasSid_aggregate.mp hsid'
      exact Nat.lt_irrefl _ hlt
    | simple => exact absurd ht Bool.false_ne_true
    | pointer => exact absurd ht Bool.false_ne_true
    | other => exact absurd ht Bool.false_ne_true
  have hnew : ∀ u ∈ σ.allTypes, u.same (.aggregate σ.sequence (!union) packed fs.types
      fs.qualifiers fs.lengths) = false := by
    intro u hu
    cases u with
    | aggregate =>
      refine decide_eq_false fun heq => ?_
      exact Nat.lt_irrefl _ (hinv.sids _ hu σ.sequence (Typ.hasSid_aggregate.mpr heq.symm))
    | simple => rfl
    | pointer => rfl
    | other => rfl
  refine ⟨Chronicle.snoc_iff.mpr ⟨hinv.allTypes, hnew, .inr ⟨rfl, ?_⟩⟩, fun t ht sid hsid => ?_,
    fun a s hin => ?_, hinv.pointer, fun hp t ht => ?_, fun st t hst => ?_, hinv.derived,
    fun a t hin => (hinv.pointees a t hin).imp_left (List.mem_append_left _)⟩
  · refine ⟨fun u hu => hfresh u hu _ (Typ.hasSid_aggregate.mpr rfl), hfields.qualifiers,
      hfields.lengths, by rwa [hunion], ?_, hfields.zeros, by rw [hunion]; exact hfields.ok, ?_⟩
    · rw [hunion]
      exact fun hsome => List.length_pos_iff.mp (hne hsome)
    · cases union with
      | true => exact Nat.zero_le _
      | false =>
        -- one level above its deepest field, and those were chosen below the limit
        have hlt := maxStructDepth_le (hfields.shallow rfl)
          (lt_of_lt_of_le Nat.zero_lt_one (le_max_left _ _))
        simp only [Typ.getStructDepth, Bool.not_false, if_true]
        omega
  · change sid < σ.sequence + 1
    rcases List.mem_append.mp ht with hold | hlast
    · exact Nat.lt_succ_of_lt (hinv.sids t hold sid hsid)
    · rw [List.mem_singleton.mp hlast] at hsid
      rw [Typ.hasSid_aggregate.mp hsid]
      exact Nat.lt_succ_self _
  · rcases List.mem_append.mp hin with hold | hlast
    · exact hinv.simple a s hold
    · cases List.mem_singleton.mp hlast
  · rcases List.mem_append.mp ht with hold | hlast
    · exact hinv.structs hp t hold
    · rw [List.mem_singleton.mp hlast, hunion]
      cases union with
      | false => rfl
      | true =>
        obtain ⟨hearly, hstructs⟩ := hphase rfl
        exact absurd hp (not_or.mpr ⟨hearly, hstructs⟩)
  · obtain ⟨hin, hsimple⟩ := hinv.simpleTypes st t hst
    exact ⟨List.mem_append_left _ hin, hsimple⟩

/-- The simple types, once more. -/
theorem Inv.generateSimpleTypes (h : Inv o σ) : Inv o σ.generateSimpleTypes := by
  have key : ∀ (ss : List SimpleType) {σ}, Inv o σ → Inv o (ss.foldl State.pushSimple σ) := by
    intro ss
    induction ss with
    | nil => exact fun h => h
    | cons s ss ih => exact fun h => ih (h.pushSimple s)
  exact key _ h

/-- `GenerateAllTypes` goes on. -/
theorem Inv.setPhase (h : Inv o σ) (hp : ph = .early ∨ ph = .structs →
    σ.phase = .early ∨ σ.phase = .structs) : Inv o { σ with phase := ph } :=
  ⟨h.allTypes, h.sids, h.simple, h.pointer, fun hph => h.structs (hp hph), h.simpleTypes,
    h.derived, h.pointees⟩

theorem State.known_of_pointee {p : Pointee} (hp : σ.pointee p = some t) : σ.Known t := by
  cases p with
  | ofAllTypes i => exact .inl (List.mem_of_getElem? hp)
  | ofDerived i => exact .inr (.inl (List.mem_of_getElem? hp))
  | other a => exact .inr (.inr ⟨a, (Option.some.inj hp).symm⟩)

/-- **The step lemma.** -/
theorem Inv.step {e : Event} (h : Inv o σ) (hstep : TypeTable.step o σ e = some σ') : Inv o σ' := by
  cases e with
  | getSimpleType st =>
    cases hstep
    exact (getSimpleType_spec h st).1
  | nextPhase =>
    simp only [TypeTable.step] at hstep
    split at hstep
    · next hearly =>
      cases hstep
      exact h.generateSimpleTypes.setPhase fun _ => .inl hearly
    · cases hstep
      exact h.setPhase fun hp => absurd hp (by simp)
    · cases hstep
      exact h.setPhase fun hp => absurd hp (by simp)
    · cases hstep
  -- the types that are looked up for the fields are new before the struct is
  | makeStruct ds coin =>
    obtain ⟨hok, hstep⟩ := Option.ite_none_left_eq_some.mp hstep
    obtain ⟨⟨σ₁, fs⟩, hfs, rfl⟩ := Option.map_eq_some_iff.mp hstep
    simp only [not_or, not_not, Bool.not_eq_false] at hok
    obtain ⟨hphase, -, hcount⟩ := hok
    unfold Options.structFieldCnt at hcount
    have hmade := makeFields_spec (fun d n σ fs σ' fs' hI hd => hI.structField hd)
      (⟨h, hphase, FieldsOk.nil, rfl⟩ : Making o false .structs 0 σ {}) hfs
    rw [Nat.zero_add] at hmade
    refine hmade.pushAggregate ?_ ?_ fun hf => absurd hf (by simp)
    · rw [if_neg Bool.false_ne_true]
      split_ifs at hcount <;> simp only [Bool.and_eq_true, decide_eq_true_eq] at hcount <;> omega
    · rintro (hf | hpos)
      · exact absurd hf (by simp)
      · split_ifs at hcount <;> simp only [Bool.and_eq_true, decide_eq_true_eq] at hcount <;> omega
  | makeUnion ds =>
    obtain ⟨hok, hstep⟩ := Option.ite_none_left_eq_some.mp hstep
    obtain ⟨⟨σ₁, fs⟩, hfs, rfl⟩ := Option.map_eq_some_iff.mp hstep
    simp only [not_or, not_not, not_lt] at hok
    obtain ⟨hphase, -, hpos, hcount⟩ := hok
    have hmade := makeFields_spec (fun d n σ fs σ' fs' hI hd => hI.unionField hd)
      (⟨h, hphase, FieldsOk.nil, rfl⟩ : Making o true .unions 0 σ {}) hfs
    rw [Nat.zero_add] at hmade
    exact hmade.pushAggregate (by simpa using hcount) (fun _ => Nat.pos_of_ne_zero hpos)
      fun _ => ⟨by decide, by decide⟩
  | otherStruct =>
    cases hstep
    exact ⟨h.allTypes, fun t ht sid hsid => Nat.lt_succ_of_lt (h.sids t ht sid hsid), h.simple,
      h.pointer, h.structs, h.simpleTypes, h.derived, h.pointees⟩
  | use i =>
    simp only [TypeTable.step] at hstep
    split at hstep
    · cases hstep
      exact ⟨h.allTypes, h.sids, h.simple, h.pointer, h.structs, h.simpleTypes, h.derived,
        h.pointees⟩
    · cases hstep
  | derive p =>
    obtain ⟨t, ht, rfl⟩ := Option.map_eq_some_iff.mp hstep
    exact (findPointerType_spec h (State.known_of_pointee ht)).1

theorem inv_of_reachable (h : (system o).Reachable σ) : Inv o σ :=
  Common.invariant_of_events (I := Inv o) Inv.start (fun _ _ _ hσ he => hσ.step he) h

/-! ## Definitions in order -/

theorem Typ.SameSid.symm (h : t.SameSid f) : f.SameSid t := by
  obtain ⟨sid, ht, hf⟩ := h
  exact ⟨sid, hf, ht⟩

/-- A field and its length. -/
theorem Aggregate.exists_length {l : List Typ} (h : Aggregate o l t) (hf : f ∈ t.fields) :
    ∃ length, FieldOk o l t.isUnion f length := by
  obtain ⟨i, hi, rfl⟩ := List.mem_iff_getElem.mp hf
  have hi' : i < t.bitfieldsLength.length := h.lengths ▸ hi
  refine ⟨t.bitfieldsLength[i], h.ok (t.fields[i], t.bitfieldsLength[i]) ?_⟩
  rw [List.mem_iff_getElem]
  exact ⟨i, by rw [List.length_zip]; omega, List.getElem_zip⟩

/-- **The structs and unions of the tables**: told apart by the `sid`, and made of each
other. -/
theorem Inv.family (h : Inv o σ) :
    Family fun t => t ∈ σ.allTypes ∧ t.isAggregate = true := by
  constructor
  · rintro t u ⟨ht, hta⟩ ⟨hu, hua⟩ hsame
    by_contra hne
    have hpair : σ.allTypes.Pairwise fun t u => ¬ t.SameSid u := by
      refine Chronicle.pairwise (h.allTypes.mono fun pre u hu w hw hs => ?_)
      rcases hu.2 with ⟨a, s, rfl⟩ | ⟨-, hagg⟩
      · obtain ⟨sid, -, hsid⟩ := hs
        exact Bool.false_ne_true hsid
      · exact hagg.fresh w hw hs
    have hsymm : Std.Symm fun t u : Typ => ¬ t.SameSid u := ⟨fun _ _ hns hs => hns hs.symm⟩
    exact hpair.forall ht hu hne hsame
  · rintro t f ⟨ht, hta⟩ hf
    obtain ⟨pre, hpre, -, hnext⟩ := h.allTypes.exists_before ht
    rcases hnext with ⟨a, s, rfl⟩ | ⟨-, hagg⟩
    · exact absurd hta Bool.false_ne_true
    obtain ⟨length, hbit | ⟨-, hin, -, -⟩ | ⟨-, -, a, c, rfl, -, -⟩⟩ := hagg.exists_length hf.1
    · exact ⟨hpre f hbit.2.2.1, hf.2⟩
    · exact ⟨hpre f hin, hf.2⟩
    · exact absurd hf.2 Bool.false_ne_true

/-- Over aggregates only, the loop of `OutputStructUnionDeclarations` is that over fields. -/
theorem foldl_outputStructUnion {ts out : List Typ} (h : ∀ t ∈ ts, t.isAggregate = true) :
    ts.foldl (fun out t => outputStructUnion t out) out = outputFields ts out := by
  induction ts generalizing out with
  | nil => rfl
  | cons t ts ih =>
    rw [List.foldl_cons, outputFields, if_pos (h t List.mem_cons_self)]
    exact ih fun u hu => h u (List.mem_cons_of_mem _ hu)

/-- A type that has been chosen. -/
def State.Used (σ : State) (t : Typ) : Prop :=
  t ∈ σ.allTypes ∧ ∃ sid ∈ σ.used, t.hasSid sid = true

/-- **The tables are sound**: no `Type` stands in `AllTypes` twice, what is no struct or
union there is a simple type, and every struct and union stands after what it is made of,
with fields and nesting as allowed. The derived types are pointer types, and no two of
them point to the same `Type`. -/
theorem tables_reachable (h : (system o).Reachable σ) :
    (∀ pre t post, σ.allTypes = pre ++ t :: post → (∀ u ∈ pre, u.same t = false) ∧
      ((∃ a s, t = .simple a s) ∨ t.isAggregate = true ∧ Aggregate o pre t)) ∧
    ∀ pre d post, σ.derivedTypes = pre ++ d :: post → (∀ u ∈ pre, u.same d = false) ∧
      ∃ a t, d = .pointer a t ∧ σ.Known t ∧ ∀ u ∈ pre, Typ.pointsTo t u = false := by
  have hinv := inv_of_reachable h
  refine ⟨hinv.allTypes, fun pre d post hsplit => ?_⟩
  obtain ⟨hfresh, a, t, rfl, hnew⟩ := hinv.derived pre d post hsplit
  have hknown := hinv.pointees a t (hsplit ▸ List.mem_append_right _ List.mem_cons_self)
  exact ⟨hfresh, a, t, rfl, hknown, hnew⟩

/-- `struct S0 { signed f0 : 3; signed : 0; int32_t f1; }; struct S1 { struct S0 f0; };` and
`union U2 { int8_t *f0; int32_t f1; };`, of which `S1` is used. There are two objects of
the type `int`: one was asked for early, the other is of `GenerateSimpleTypes`; both are
pointed to. -/
def nestedEvents : List Event :=
  let q : CVQualifiers := ⟨false, false, [false], [false]⟩
  [.getSimpleType .eInt, .nextPhase,
    .makeStruct [.bitfield ⟨true, q, 3, 0⟩, .bitfield ⟨true, q, 0, 0⟩, .field 3 q] false,
    .makeStruct [.field 11 q] true, .nextPhase, .makeUnion [.charPointer q, .other 3 q], .use 12,
    .derive (.ofAllTypes 0), .derive (.ofAllTypes 3)]

theorem tables_reachable_nested : ∃ σ, Common.runEvents (step {}) {} nestedEvents = some σ ∧
    (σ.allTypes.map fun t => t.fields.length).drop 11 = [3, 1, 2] ∧ σ.derivedTypes.length = 3 ∧
    (∀ pre t post, σ.allTypes = pre ++ t :: post → (∀ u ∈ pre, u.same t = false) ∧
      ((∃ a s, t = .simple a s) ∨ t.isAggregate = true ∧ Aggregate {} pre t)) ∧
    ∀ pre d post, σ.derivedTypes = pre ++ d :: post → (∀ u ∈ pre, u.same d = false) ∧
      ∃ a t, d = .pointer a t ∧ σ.Known t ∧ ∀ u ∈ pre, Typ.pointsTo t u = false := by
  obtain ⟨σ, hσ⟩ : ∃ σ, Common.runEvents (step {}) {} nestedEvents = some σ := ⟨_, rfl⟩
  refine ⟨σ, hσ, ?_, ?_, tables_reachable (Common.reachable_runEvents (.init rfl) hσ)⟩
  · cases hσ
    decide
  · cases hσ
    decide

/-- **The definitions come out in order**: each once, after those of its fields, and
just those of the types that are used and of what these are made of. It holds in every
state, whatever was used up to there. -/
theorem output_reachable (h : (system o).Reachable σ) :
    (∀ pre t post, σ.outputStructUnionDeclarations = pre ++ t :: post →
      t.isAggregate = true ∧ (∀ u ∈ pre, ¬ u.SameSid t) ∧ ∀ f, t.Field f → f ∈ pre) ∧
    ∀ u, u ∈ σ.outputStructUnionDeclarations ↔ ∃ t, σ.Used t ∧ t.Within u := by
  have hinv := inv_of_reachable h
  have hroots : ∀ t, t ∈ (σ.allTypes.filter fun t => t.isAggregate &&
      σ.used.any fun sid => t.hasSid sid) ↔ σ.Used t := by
    intro t
    simp only [List.mem_filter, Bool.and_eq_true, List.any_eq_true, State.Used]
    constructor
    · rintro ⟨ht, -, hused⟩
      exact ⟨ht, hused⟩
    · rintro ⟨ht, sid, hin, hsid⟩
      exact ⟨ht, Typ.isAggregate_of_hasSid hsid, sid, hin, hsid⟩
  have hagg : ∀ t ∈ (σ.allTypes.filter fun t => t.isAggregate &&
      σ.used.any fun sid => t.hasSid sid), t.isAggregate = true := by
    intro t ht
    obtain ⟨-, sid, -, hsid⟩ := (hroots t).mp ht
    exact Typ.isAggregate_of_hasSid hsid
  have hwalk := written_outputFields (U := fun t => t ∈ σ.allTypes ∧ t.isAggregate = true) _
    (fun t ht out hout hfam => written_outputStructUnion hinv.family t
      (fun ha => ⟨((hroots t).mp ht).1, ha⟩) hout hfam) Chronicle.nil
    (fun u hu => absurd hu List.not_mem_nil)
  unfold State.outputStructUnionDeclarations
  rw [foldl_outputStructUnion hagg]
  refine ⟨hwalk.ordered, fun u => ⟨fun hu => ?_, ?_⟩⟩
  · rcases hwalk.only u hu with hnone | ⟨t, ht, -, hwithin⟩
    · exact absurd hnone List.not_mem_nil
    · exact ⟨t, (hroots t).mp ht, hwithin⟩
  · rintro ⟨t, ht, hwithin⟩
    have hroot := (hroots t).mpr ht
    exact mem_of_within hwalk.ordered (hwalk.written t hroot (hagg t hroot)) hwithin

theorem output_reachable_nested : ∃ σ, Common.runEvents (step {}) {} nestedEvents = some σ ∧
    (σ.outputStructUnionDeclarations.map fun t => t.fields.length) = [3, 1] ∧
    ∀ u, u ∈ σ.outputStructUnionDeclarations ↔ ∃ t, σ.Used t ∧ t.Within u := by
  obtain ⟨σ, hσ⟩ : ∃ σ, Common.runEvents (step {}) {} nestedEvents = some σ := ⟨_, rfl⟩
  refine ⟨σ, hσ, ?_, (output_reachable (Common.reachable_runEvents (.init rfl) hσ)).2⟩
  cases hσ
  decide

end TypeTable

end CLSmith
