import CLSmith.Effect
/-!
# Conflicts of effects

Two effects overlap where one writes a leaf location that the other reads or
writes. A context reports every overlap with what it has already seen, as long
as no union is inside another aggregate; and what is asked of a sum of effects
is answered as by the one or by the other.
-/

namespace CLSmith

namespace Effects

open Facts

variable {N : Type} [DecidableEq N]

/-! ## Purpose -/

section Purpose

variable (D : N → Decl)

/-- The field with that index has a name. -/
def hasField : Fields → ℕ → Bool
  | .nil, _ => false
  | .cons _ len _, 0 => len != some 0
  | .cons _ _ rest, i + 1 => hasField rest i

/-- The path of a field variable. -/
def existsAt (n : N) : List ℕ → Prop
  | [] => True
  | i :: path => hasField (typeAt D n path).fields i = true ∧ existsAt n path

/-- A variable or a field of one. -/
def IsVar : Variable N → Prop
  | .named n path => existsAt D n path
  | _ => False

/-- The variables of an effect are variables: declared, or fields of what is declared. -/
structure Effect.Over (x : Effect N) : Prop where
  reads : ∀ v ∈ x.readVars, IsVar D v
  writes : ∀ v ∈ x.writeVars, IsVar D v

/-- A variable is the other one, or an aggregate that the other one is in. -/
def Covers : Variable N → Variable N → Prop
  | .named m q, .named n p => m = n ∧ q <:+ p
  | _, _ => False

/-- A variable without fields. -/
def IsLeaf (x : Variable N) : Prop := IsVar D x ∧ (x.type D).isAggregate = false

/-- Fields of one union share their location. -/
def SameLocation (x y : Variable N) : Prop :=
  x = y ∨ ∃ u : Variable N, (u.type D).isUnion = true ∧ Covers u x ∧ Covers u y

/-- A leaf is read, or written, with a variable of the set. -/
def Touches (vars : List (Variable N)) (x : Variable N) : Prop := ∃ w ∈ vars, Covers w x

/-- **The effects overlap**: one writes a leaf location that the other reads or
writes. -/
def Overlap (a b : Effect N) : Prop :=
  ∃ x y, IsLeaf D x ∧ IsLeaf D y ∧ SameLocation D x y ∧
    ((Touches a.writeVars x ∧ (Touches b.readVars y ∨ Touches b.writeVars y)) ∨
      (Touches a.readVars x ∧ Touches b.writeVars y))

/-- No struct contains a union. -/
def NoUnionInStruct : Prop :=
  ∀ n i path, isStruct (typeAt D n path) = true → (typeAt D n (i :: path)).isUnion = false

/-- No union contains a union. -/
def NoUnionInUnion : Prop :=
  ∀ n i path, (typeAt D n path).isUnion = true → (typeAt D n (i :: path)).isUnion = false

end Purpose

variable {D : N → Decl} {up : Ty → Bool} {vars new : List (Variable N)} {v w : Variable N}
  {n : N} {path : List ℕ}

/-! ## Searches up -/

/-- A variable is the other one, or is above it through types the search goes
through. -/
inductive Above (D : N → Decl) (up : Ty → Bool) (w : Variable N) : Variable N → Prop
  | refl : Above D up w w
  | field {n : N} {i : ℕ} {path : List ℕ} (h : Above D up w (.named n path))
      (hup : up (typeAt D n path) = true) : Above D up w (.named n (i :: path))

omit [DecidableEq N] in
theorem Above.trans {x : Variable N} (h : Above D up v w) (h' : Above D up w x) :
    Above D up v x := by
  induction h' with
  | refl => exact h
  | field _ hup ih => exact ih.field hup

theorem coveredAt_iff : coveredAt D up vars n path = true ↔
    ∃ w ∈ vars, Above D up w (.named n path) := by
  induction path with
  | nil =>
    rw [coveredAt, decide_eq_true_eq]
    constructor
    · exact fun h => ⟨_, h, .refl⟩
    · rintro ⟨w, hw, habove⟩
      cases habove
      exact hw
  | cons i path ih =>
    rw [coveredAt, Bool.or_eq_true, Bool.and_eq_true, decide_eq_true_eq, ih]
    constructor
    · rintro (h | ⟨hup, w, hw, habove⟩)
      · exact ⟨_, h, .refl⟩
      · exact ⟨w, hw, habove.field hup⟩
    · rintro ⟨w, hw, habove⟩
      cases habove with
      | refl => exact .inl hw
      | field h hup => exact .inr ⟨hup, w, hw, h⟩

/-- **What is covered** is in the set or below one of its variables. -/
theorem covered_iff : covered D up vars v = true ↔ ∃ w ∈ vars, Above D up w v := by
  cases v with
  | named n path => exact coveredAt_iff
  | _ =>
    unfold covered
    rw [decide_eq_true_eq]
    constructor
    · exact fun h => ⟨_, h, .refl⟩
    · rintro ⟨w, hw, habove⟩
      cases habove
      exact hw

/-! ## Sums of sets -/

theorem subset_addVars : ∀ v ∈ vars, v ∈ addVars D up vars new := by
  induction new generalizing vars with
  | nil => exact fun v hv => hv
  | cons x new ih =>
    intro v hv
    rw [addVars]
    split
    · exact ih v hv
    · exact ih v (List.mem_append_left _ hv)

theorem mem_of_addVars : ∀ v ∈ addVars D up vars new, v ∈ vars ∨ v ∈ new := by
  induction new generalizing vars with
  | nil => exact fun v hv => .inl hv
  | cons x new ih =>
    intro v hv
    rw [addVars] at hv
    split at hv
    · exact (ih v hv).imp_right (List.mem_cons_of_mem _)
    · rcases ih v hv with h | h
      · rcases List.mem_append.mp h with h | h
        · exact .inl h
        · exact .inr (List.mem_singleton.mp h ▸ List.mem_cons_self)
      · exact .inr (List.mem_cons_of_mem _ h)

/-- A new variable that is not taken up was covered. -/
theorem covered_of_mem_new : ∀ v ∈ new, covered D up (addVars D up vars new) v = true := by
  have mono : ∀ {a b : List (Variable N)} {v}, (∀ x ∈ a, x ∈ b) → covered D up a v = true →
      covered D up b v = true := by
    intro a b v hab h
    obtain ⟨w, hw, habove⟩ := covered_iff.mp h
    exact covered_iff.mpr ⟨w, hab w hw, habove⟩
  induction new generalizing vars with
  | nil => exact fun v hv => nomatch hv
  | cons x new ih =>
    intro v hv
    rw [addVars]
    rcases List.mem_cons.mp hv with rfl | hv
    · split
      · next h => exact mono subset_addVars h
      · exact covered_iff.mpr ⟨v, subset_addVars v (by simp), .refl⟩
    · split
      · exact ih v hv
      · exact ih v hv

/-- **A sum covers what one of the sets covers.** -/
theorem covered_addVars : covered D up (addVars D up vars new) v =
    (covered D up vars v || covered D up new v) := by
  rw [Bool.eq_iff_iff, Bool.or_eq_true]
  constructor
  · intro h
    obtain ⟨w, hw, habove⟩ := covered_iff.mp h
    rcases mem_of_addVars w hw with hw | hw
    · exact .inl (covered_iff.mpr ⟨w, hw, habove⟩)
    · exact .inr (covered_iff.mpr ⟨w, hw, habove⟩)
  · rintro (h | h)
    · obtain ⟨w, hw, habove⟩ := covered_iff.mp h
      exact covered_iff.mpr ⟨w, subset_addVars w hw, habove⟩
    · obtain ⟨w, hw, habove⟩ := covered_iff.mp h
      have hcov : covered D up (addVars D up vars new) w = true := covered_of_mem_new w hw
      obtain ⟨w', hw', habove'⟩ := covered_iff.mp hcov
      exact covered_iff.mpr ⟨w', hw', habove'.trans habove⟩

mutual

theorem anyField_or (p q : List ℕ → Bool) (path : List ℕ) : ∀ (fields : Fields) (i : ℕ),
    anyField (fun r => p r || q r) path fields i =
      (anyField p path fields i || anyField q path fields i)
  | .nil, _ => rfl
  | .cons t len rest, i => by
    rw [anyField, anyField, anyField, anyFieldOf_or p q (i :: path) t,
      anyField_or p q path rest (i + 1)]
    cases len != some 0 <;> cases p (i :: path) <;> cases q (i :: path) <;>
      cases anyFieldOf p (i :: path) t <;> cases anyField p path rest (i + 1) <;> simp

theorem anyFieldOf_or (p q : List ℕ → Bool) (path : List ℕ) : ∀ t : Ty,
    anyFieldOf (fun r => p r || q r) path t = (anyFieldOf p path t || anyFieldOf q path t)
  | .simple _ => rfl
  | .pointer _ => rfl
  | .struct _ fields => anyField_or p q path fields 0
  | .union fields => anyField_or p q path fields 0

end

theorem fieldCovered_addVars : fieldCovered D up (addVars D up vars new) v =
    (fieldCovered D up vars v || fieldCovered D up new v) := by
  cases v with
  | named n path =>
    have hcov : coveredAt D up (addVars D up vars new) n =
        fun r => coveredAt D up vars n r || coveredAt D up new n r := by
      funext r
      exact covered_addVars (v := .named n r)
    show anyFieldOf (coveredAt D up (addVars D up vars new) n) path (typeAt D n path) = _
    rw [hcov, anyFieldOf_or]
    rfl
  | _ => rfl

theorem siblingCovered_iff : siblingCovered D vars v = true ↔
    v.containerUnion D ≠ none ∧ ∃ w ∈ vars, w.containerUnion D = v.containerUnion D := by
  unfold siblingCovered
  cases v.containerUnion D with
  | none => simp
  | some you => simp

/-- A variable is partly covered: `is_read_partially` or `is_written_partially`
of the set. -/
def partially (D : N → Decl) (up : Ty → Bool) (vars : List (Variable N)) (v : Variable N) : Bool :=
  covered D up vars v || fieldCovered D up vars v || siblingCovered D vars v

/-- **A sum covers partly what one of the sets covers partly**, where what is
above a variable in a union is in this union too, or above all that is in it. -/
theorem partially_addVars
    (hup : ∀ w me v : Variable N, Above D up w me → v.containerUnion D ≠ none →
      me.containerUnion D = v.containerUnion D →
      w.containerUnion D = v.containerUnion D ∨ Above D up w v) :
    partially D up (addVars D up vars new) v =
      (partially D up vars v || partially D up new v) := by
  have hsibling : siblingCovered D (addVars D up vars new) v = true →
      siblingCovered D vars v = true ∨ siblingCovered D new v = true := by
    intro h
    obtain ⟨hne, w, hw, heq⟩ := siblingCovered_iff.mp h
    exact (mem_of_addVars w hw).imp (fun hw => siblingCovered_iff.mpr ⟨hne, w, hw, heq⟩)
      fun hw => siblingCovered_iff.mpr ⟨hne, w, hw, heq⟩
  have hold : siblingCovered D vars v = true →
      siblingCovered D (addVars D up vars new) v = true := by
    intro h
    obtain ⟨hne, w, hw, heq⟩ := siblingCovered_iff.mp h
    exact siblingCovered_iff.mpr ⟨hne, w, subset_addVars w hw, heq⟩
  have hnew : siblingCovered D new v = true →
      siblingCovered D (addVars D up vars new) v = true ∨
        covered D up (addVars D up vars new) v = true := by
    intro h
    obtain ⟨hne, me, hme, heq⟩ := siblingCovered_iff.mp h
    have hcov : covered D up (addVars D up vars new) me = true := covered_of_mem_new me hme
    obtain ⟨w, hw, habove⟩ := covered_iff.mp hcov
    exact (hup w me v habove hne heq).imp
      (fun hc => siblingCovered_iff.mpr ⟨hne, w, hw, hc⟩)
      fun ha => covered_iff.mpr ⟨w, hw, ha⟩
  rw [covered_addVars] at hnew
  unfold partially
  rw [covered_addVars, fieldCovered_addVars, Bool.eq_iff_iff]
  simp only [Bool.or_eq_true] at hnew ⊢
  tauto

omit [DecidableEq N] in
/-- Where structs have no unions, a variable is in the same union as the structs
above it. -/
theorem containerUnion_of_structs (hD : NoUnionInStruct D) (h : Above D isStruct w v) :
    w.containerUnion D = v.containerUnion D := by
  induction h with
  | refl => rfl
  | @field n i path _ hup ih =>
    have hfield : (Variable.named n (i :: path)).containerUnion D =
        (Variable.named n path).containerUnion D :=
      congrArg (Option.map (Variable.named n)) (unionAt_field (hD n i path hup))
    rw [ih, hfield]

omit [DecidableEq N] in
/-- Whatever is above a variable in a union is in this union too, or above it. -/
theorem containerUnion_of_above {u : List ℕ} (h : Above D (fun _ => true) w (.named n path))
    (hu : unionAt D n path = some u) :
    w.containerUnion D = some (.named n u) ∨ Above D (fun _ => true) w (.named n u) := by
  induction path with
  | nil =>
    cases h
    exact .inl (congrArg (Option.map (Variable.named n)) hu)
  | cons i path ih =>
    cases hty : (typeAt D n (i :: path)).isUnion with
    | true =>
      rw [unionAt_union hty] at hu
      cases hu
      exact .inr h
    | false =>
      cases h with
      | refl => exact .inl (congrArg (Option.map (Variable.named n)) hu)
      | field h _ =>
        rw [unionAt_field hty] at hu
        exact ih h hu

omit [DecidableEq N] in
/-- A path is below each of its ends. -/
theorem above_of_suffix {q : List ℕ} (h : q <:+ path) :
    Above D (fun _ => true) (.named n q) (.named n path) := by
  induction path with
  | nil =>
    rw [List.suffix_nil.mp h]
    exact .refl
  | cons i path ih =>
    rcases List.suffix_cons_iff.mp h with rfl | h
    · exact .refl
    · exact (ih h).field rfl

omit [DecidableEq N] in
theorem exists_containerUnion {u : Variable N} (h : v.containerUnion D = some u) :
    ∃ n path r, v = .named n path ∧ unionAt D n path = some r ∧ u = .named n r := by
  cases v with
  | named n path =>
    obtain ⟨r, hr, rfl⟩ := Option.map_eq_some_iff.mp h
    exact ⟨n, path, r, rfl, hr, rfl⟩
  | _ => cases h

/-- **What is read partly after `add_effect`.** -/
theorem isReadPartially_addEffect (hD : NoUnionInStruct D) (x y : Effect N) (lhs : Bool)
    (v : Variable N) : (x.addEffect D y lhs).isReadPartially D v =
      (x.isReadPartially D v || y.isReadPartially D v) :=
  partially_addVars fun _ _ _ habove _ hme => .inl ((containerUnion_of_structs hD habove).trans hme)

/-- **What is written partly after `add_effect`.** -/
theorem isWrittenPartially_addEffect (x y : Effect N) (lhs : Bool) (v : Variable N) :
    (x.addEffect D y lhs).isWrittenPartially D v =
      (x.isWrittenPartially D v || y.isWrittenPartially D v) := by
  refine partially_addVars fun w me v habove hne hme => ?_
  obtain ⟨u, hu⟩ := Option.ne_none_iff_exists'.mp hne
  obtain ⟨n, path, r, rfl, hr, rfl⟩ := exists_containerUnion hu
  rw [hu] at hme
  obtain ⟨m, path', r', rfl, hr', hsame⟩ := exists_containerUnion hme
  cases hsame
  rw [hu]
  exact (containerUnion_of_above habove hr').imp_right fun h =>
    h.trans (above_of_suffix (unionAt_some hr).1)

/-! ## Nothing is missed -/

/-- A field that holds is found by the loop, from an earlier index on. -/
theorem anyField_of {p : List ℕ → Bool} {fields : Fields} {i k : ℕ}
    (hi : hasField fields i = true)
    (h : p ((k + i) :: path) = true ∨
      ∃ t, fields.get i = some t ∧ anyFieldOf p ((k + i) :: path) t = true) :
    anyField p path fields k = true := by
  induction i generalizing fields k with
  | zero =>
    cases fields with
    | nil => cases hi
    | cons t len rest =>
      have hlen : (len != some 0) = true := hi
      rw [anyField, hlen]
      rcases h with h | ⟨t', ht, h⟩
      · simp only [Nat.add_zero] at h
        simp [h]
      · cases ht
        simp only [Nat.add_zero] at h
        simp [h]
  | succ i ih =>
    cases fields with
    | nil => cases hi
    | cons t len rest =>
      have hnext : k + (i + 1) = (k + 1) + i := by omega
      rw [hnext] at h
      rw [anyField, ih (k := k + 1) hi h, Bool.or_true]

omit [DecidableEq N] in
theorem get_of_hasField {fields : Fields} {i : ℕ} (h : hasField fields i = true) :
    ∃ t, fields.get i = some t := by
  induction i generalizing fields with
  | zero =>
    cases fields with
    | nil => cases h
    | cons t len rest => exact ⟨t, rfl⟩
  | succ i ih =>
    cases fields with
    | nil => cases h
    | cons t len rest => exact ih h

omit [DecidableEq N] in
/-- What is a field is one of an aggregate. -/
theorem isAggregate_of_existsAt {i : ℕ} (h : existsAt D n (i :: path)) :
    (typeAt D n path).isAggregate = true := by
  have hfield := h.1
  cases hty : typeAt D n path with
  | struct packed fields => rfl
  | union fields => rfl
  | simple size =>
    rw [hty] at hfield
    cases hfield
  | pointer t =>
    rw [hty] at hfield
    cases hfield

omit [DecidableEq N] in
theorem existsAt_suffix {q : List ℕ} (h : existsAt D n path) (hq : q <:+ path) :
    existsAt D n q := by
  induction path with
  | nil =>
    rw [List.suffix_nil.mp hq]
    trivial
  | cons i path ih =>
    rcases List.suffix_cons_iff.mp hq with rfl | hq
    · exact h
    · exact ih h.2 hq

omit [DecidableEq N] in
/-- A field of an aggregate is found from it, and from what the aggregate is a
field of. -/
theorem anyFieldOf_field {p : List ℕ → Bool} {i : ℕ} (hex : existsAt D n (i :: path))
    (h : p (i :: path) = true ∨ anyFieldOf p (i :: path) (typeAt D n (i :: path)) = true) :
    anyFieldOf p path (typeAt D n path) = true := by
  obtain ⟨t, ht⟩ := get_of_hasField hex.1
  have hty : typeAt D n (i :: path) = t := by
    show ((typeAt D n path).fields.get i).getD (.simple 0) = t
    rw [ht]
    rfl
  rw [hty] at h
  have hany : anyField p path (typeAt D n path).fields 0 = true := by
    refine anyField_of hex.1 ?_
    rw [Nat.zero_add]
    exact h.imp_right fun h => ⟨t, ht, h⟩
  have hagg := isAggregate_of_existsAt hex
  cases hpath : typeAt D n path with
  | struct packed fields =>
    rw [hpath] at hany
    exact hany
  | union fields =>
    rw [hpath] at hany
    exact hany
  | simple size =>
    rw [hpath] at hagg
    cases hagg
  | pointer t =>
    rw [hpath] at hagg
    cases hagg

/-- **What a variable of the set is a field of is partly covered.** -/
theorem fieldCovered_of_suffix {q : List ℕ} (hw : .named n path ∈ vars)
    (hex : existsAt D n path) (hq : q <:+ path) (hne : q ≠ path) :
    fieldCovered D up vars (.named n q) = true := by
  have hself : coveredAt D up vars n path = true := coveredAt_iff.mpr ⟨_, hw, .refl⟩
  show anyFieldOf (coveredAt D up vars n) q (typeAt D n q) = true
  -- from the variable up to the aggregate
  have key : ∀ r, r <:+ path → q <:+ r → q ≠ r →
      (coveredAt D up vars n r = true ∨
        anyFieldOf (coveredAt D up vars n) r (typeAt D n r) = true) →
      anyFieldOf (coveredAt D up vars n) q (typeAt D n q) = true := by
    intro r hr hqr hne h
    induction r with
    | nil => exact absurd (List.suffix_nil.mp hqr) hne
    | cons i r ih =>
      have hup := anyFieldOf_field (existsAt_suffix hex hr) h
      rcases List.suffix_cons_iff.mp hqr with heq | hqr
      · exact absurd heq hne
      · by_cases heq : q = r
        · rw [heq]
          exact hup
        · exact ih ((List.suffix_cons i r).trans hr) hqr heq (.inr hup)
  exact key path List.suffix_rfl hq hne (.inl hself)

omit [DecidableEq N] in
/-- Where no union is inside another aggregate, only whole variables are unions. -/
theorem isUnion_field (hS : NoUnionInStruct D) (hU : NoUnionInUnion D) (n : N) (i : ℕ)
    (path : List ℕ) : (typeAt D n (i :: path)).isUnion = false := by
  cases hty : typeAt D n path with
  | struct packed fields => exact hS n i path (by rw [hty]; rfl)
  | union fields => exact hU n i path (by rw [hty]; rfl)
  | simple size =>
    show (((typeAt D n path).fields.get i).getD (.simple 0)).isUnion = false
    rw [hty]
    rfl
  | pointer t =>
    show (((typeAt D n path).fields.get i).getD (.simple 0)).isUnion = false
    rw [hty]
    rfl

omit [DecidableEq N] in
theorem containerUnion_top (hS : NoUnionInStruct D) (hU : NoUnionInUnion D)
    (h : (typeAt D n []).isUnion = true) :
    (Variable.named n path).containerUnion D = some (.named n []) := by
  have hat : unionAt D n path = some [] := by
    induction path with
    | nil => exact unionAt_union h
    | cons i path ih => rw [unionAt_field (isUnion_field hS hU n i path), ih]
  show (unionAt D n path).map (Variable.named n) = _
  rw [hat]
  rfl

omit [DecidableEq N] in
/-- Where there is no union, the search from a field goes all the way up. -/
theorem above_of_existsAt {q : List ℕ} (hup : ∀ t : Ty, t.isAggregate = true → t.isUnion = false →
    up t = true) (hno : ∀ r, (typeAt D n r).isUnion = false) (hex : existsAt D n path)
    (hq : q <:+ path) : Above D up (.named n q) (.named n path) := by
  induction path with
  | nil =>
    rw [List.suffix_nil.mp hq]
    exact .refl
  | cons i path ih =>
    rcases List.suffix_cons_iff.mp hq with rfl | hq
    · exact .refl
    · exact (ih hex.2 hq).field (hup _ (isAggregate_of_existsAt hex) (hno path))

/-- **A variable that meets one of the set is partly covered.** -/
theorem partially_of_meets (hS : NoUnionInStruct D) (hU : NoUnionInUnion D)
    (hup : ∀ t : Ty, t.isAggregate = true → t.isUnion = false → up t = true) {x y : Variable N}
    (hw : w ∈ vars) (hwvar : IsVar D w) (hvvar : IsVar D v) (hx : Covers w x) (hy : Covers v y)
    (hloc : SameLocation D x y) : partially D up vars v = true := by
  cases w with
  | named m q =>
    cases v with
    | named m' q' =>
      cases x with
      | named n p =>
        cases y with
        | named n' p' =>
          obtain ⟨rfl, hq⟩ : m = n ∧ q <:+ p := hx
          obtain ⟨rfl, hq'⟩ : m' = n' ∧ q' <:+ p' := hy
          have hname : m' = m := by
            rcases hloc with heq | ⟨u, -, hux, huy⟩
            · cases heq
              rfl
            · cases u with
              | named k r => rw [← hux.1, ← huy.1]
              | _ => exact absurd hux id
          subst hname
          unfold partially
          cases htop : (typeAt D m' []).isUnion with
          | true =>
            have hsib : siblingCovered D vars (.named m' q') = true := by
              refine siblingCovered_iff.mpr ⟨?_, _, hw, ?_⟩
              · rw [containerUnion_top hS hU htop]
                exact nofun
              · rw [containerUnion_top hS hU htop, containerUnion_top hS hU htop]
            rw [hsib, Bool.or_true]
          | false =>
            have hno : ∀ r, (typeAt D m' r).isUnion = false
              | [] => htop
              | i :: r => isUnion_field hS hU m' i r
            -- without a union the two are above one leaf
            have hsame : p = p' := by
              rcases hloc with heq | ⟨u, huni, hux, -⟩
              · cases heq
                rfl
              · cases u with
                | named k r =>
                  have hk : k = m' := hux.1
                  subst hk
                  have huni : (typeAt D k r).isUnion = true := huni
                  rw [hno r] at huni
                  cases huni
                | _ => exact absurd hux id
            subst hsame
            rcases List.suffix_or_suffix_of_suffix hq hq' with h | h
            · have hcov : covered D up vars (.named m' q') = true :=
                covered_iff.mpr ⟨_, hw, above_of_existsAt hup hno hvvar h⟩
              rw [hcov, Bool.true_or, Bool.true_or]
            · by_cases heq : q' = q
              · have hcov : covered D up vars (.named m' q') = true :=
                  covered_iff.mpr ⟨_, hw, heq ▸ .refl⟩
                rw [hcov, Bool.true_or, Bool.true_or]
              · rw [fieldCovered_of_suffix hw hwvar h heq, Bool.or_true, Bool.true_or]
        | _ => exact absurd hy id
      | _ => exact absurd hx id
    | _ => exact absurd hvvar id
  | _ => exact absurd hwvar id

/-! ## Contexts -/

variable {Q : Qualifiers N} {c : CGContext N} {b : Effect N}

/-- A variable that meets one that is written is written partly. -/
theorem isWrittenPartially_of_meets (hS : NoUnionInStruct D) (hU : NoUnionInUnion D)
    {a : Effect N} (ha : a.Over D) {x y : Variable N} (hv : IsVar D v)
    (hx : Touches a.writeVars x) (hy : Covers v y) (hloc : SameLocation D x y) :
    a.isWrittenPartially D v = true := by
  obtain ⟨w, hw, hwx⟩ := hx
  exact partially_of_meets hS hU (fun _ _ _ => rfl) hw (ha.writes w hw) hv hwx hy hloc

/-- A variable that meets one that is read is read partly. -/
theorem isReadPartially_of_meets (hS : NoUnionInStruct D) (hU : NoUnionInUnion D)
    {a : Effect N} (ha : a.Over D) {x y : Variable N} (hv : IsVar D v)
    (hx : Touches a.readVars x) (hy : Covers v y) (hloc : SameLocation D x y) :
    a.isReadPartially D v = true := by
  obtain ⟨w, hw, hwx⟩ := hx
  refine partially_of_meets hS hU (fun t hagg huni => ?_) hw (ha.reads w hw) hv hwx hy hloc
  cases t with
  | struct packed fields => rfl
  | union fields => cases huni
  | simple size => cases hagg
  | pointer t => cases hagg

/-- **No overlap is missed.** -/
theorem inConflict_of_overlap (hS : NoUnionInStruct D) (hU : NoUnionInUnion D)
    (ha : c.effectContext.Over D) (hb : b.Over D) (h : Overlap D c.effectContext b) :
    c.inConflict D Q b = true := by
  obtain ⟨x, y, -, -, hloc, h⟩ := h
  unfold CGContext.inConflict
  rw [Bool.or_eq_true, List.any_eq_true, List.any_eq_true]
  rcases h with ⟨hx, ⟨v, hv, hy⟩ | ⟨v, hv, hy⟩⟩ | ⟨hx, v, hv, hy⟩
  · refine .inl ⟨v, hv, ?_⟩
    simp [CGContext.readConflict,
      isWrittenPartially_of_meets hS hU ha (hb.reads v hv) hx hy hloc]
  · refine .inr ⟨v, hv, ?_⟩
    simp [CGContext.writeConflict,
      isWrittenPartially_of_meets hS hU ha (hb.writes v hv) hx hy hloc]
  · refine .inr ⟨v, hv, ?_⟩
    simp [CGContext.writeConflict,
      isReadPartially_of_meets hS hU ha (hb.writes v hv) hx hy hloc]

/-- **The conflicts of a sum** are those of the two effects. -/
theorem inConflict_addEffect (hS : NoUnionInStruct D) (x y : Effect N) (lhs : Bool) :
    ({ c with effectContext := x.addEffect D y lhs } : CGContext N).inConflict D Q b =
      (({ c with effectContext := x } : CGContext N).inConflict D Q b ||
        ({ c with effectContext := y } : CGContext N).inConflict D Q b) := by
  -- A sum of effects is free of side effects just when both of its parts are.
  have hvolatile : ∀ v, (Q.isVolatile v && !(x.sideEffectFree && y.sideEffectFree)) =
      ((Q.isVolatile v && !x.sideEffectFree) || (Q.isVolatile v && !y.sideEffectFree)) := by
    intro v
    cases Q.isVolatile v <;> cases x.sideEffectFree <;> cases y.sideEffectFree <;> rfl
  have hread : ∀ v,
      ({ c with effectContext := x.addEffect D y lhs } : CGContext N).readConflict D Q v =
      (({ c with effectContext := x } : CGContext N).readConflict D Q v ||
        ({ c with effectContext := y } : CGContext N).readConflict D Q v) := by
    intro v
    show (_ || (x.addEffect D y lhs).isWrittenPartially D v ||
      (Q.isVolatile v && !(x.sideEffectFree && y.sideEffectFree))) = _
    rw [isWrittenPartially_addEffect, hvolatile, Bool.eq_iff_iff]
    simp only [CGContext.readConflict, CGContext.isNonreadable, Bool.or_eq_true]
    tauto
  have hwrite : ∀ v,
      ({ c with effectContext := x.addEffect D y lhs } : CGContext N).writeConflict D Q v =
      (({ c with effectContext := x } : CGContext N).writeConflict D Q v ||
        ({ c with effectContext := y } : CGContext N).writeConflict D Q v) := by
    intro v
    show (_ || Q.isConst v || (x.addEffect D y lhs).isWrittenPartially D v ||
      (x.addEffect D y lhs).isReadPartially D v ||
      (Q.isVolatile v && !(x.sideEffectFree && y.sideEffectFree))) = _
    rw [isWrittenPartially_addEffect, isReadPartially_addEffect hS, hvolatile, Bool.eq_iff_iff]
    simp only [CGContext.writeConflict, CGContext.isNonwritable, Bool.or_eq_true]
    tauto
  unfold CGContext.inConflict
  rw [Bool.eq_iff_iff]
  simp only [Bool.or_eq_true, List.any_eq_true, hread, hwrite, and_or_left, exists_or]
  exact or_or_or_comm

/-- **Effects and their conflicts.** Where no struct contains a union, the sum of
two effects is read, written, and read and written partly, as the one or the
other is, and it is in conflict with what one of them is in conflict with;
where no union contains a union either, no overlap with a context is missed. -/
theorem conflict_spec (D : N → Decl) (Q : Qualifiers N) (hS : NoUnionInStruct D) :
    (NoUnionInUnion D → ∀ (c : CGContext N) (b : Effect N), c.effectContext.Over D → b.Over D →
      Overlap D c.effectContext b → c.inConflict D Q b = true) ∧
    (∀ (x y : Effect N) (lhs : Bool) (v : Variable N),
      (x.addEffect D y lhs).isRead D v = (x.isRead D v || y.isRead D v) ∧
      (x.addEffect D y lhs).isWritten D v = (x.isWritten D v || y.isWritten D v) ∧
      (x.addEffect D y lhs).isReadPartially D v =
        (x.isReadPartially D v || y.isReadPartially D v) ∧
      (x.addEffect D y lhs).isWrittenPartially D v =
        (x.isWrittenPartially D v || y.isWrittenPartially D v)) ∧
    ∀ (c : CGContext N) (b x y : Effect N) (lhs : Bool),
      ({ c with effectContext := x.addEffect D y lhs } : CGContext N).inConflict D Q b =
        (({ c with effectContext := x } : CGContext N).inConflict D Q b ||
          ({ c with effectContext := y } : CGContext N).inConflict D Q b) := by
  refine ⟨fun hU c b ha hb h => inConflict_of_overlap hS hU ha hb h, fun x y lhs v => ?_,
    fun c b x y lhs => inConflict_addEffect hS x y lhs⟩
  exact ⟨covered_addVars, covered_addVars, isReadPartially_addEffect hS x y lhs v,
    isWrittenPartially_addEffect x y lhs v⟩

/-! ## Unions in unions -/

omit [DecidableEq N] in
/-- The types of fields stay in a set that is closed under them. -/
theorem typeAt_mem {l : List Ty} (hroot : (D n).type ∈ l)
    (hstep : ∀ t ∈ l, ∀ i, (t.fields.get i).getD (.simple 0) ∈ l) : typeAt D n path ∈ l := by
  induction path with
  | nil => exact hroot
  | cons i path ih => exact hstep _ ih i

/-- A struct with a number. -/
def pair : Ty := .struct false (.cons (.simple 4) none .nil)

/-- A union with the struct and a number in it. -/
def flat : Ty := .union (.cons pair none (.cons (.simple 4) none .nil))

/-- A union with a union and a number in it. -/
def nested : Ty :=
  .union (.cons (.union (.cons (.simple 4) none .nil)) none (.cons (.simple 4) none .nil))

omit [DecidableEq N] in
/-- The type of a field, from that of the aggregate. -/
theorem typeAt_field {t : Ty} {i : ℕ} (h : typeAt D n path = t) :
    typeAt D n (i :: path) = (t.fields.get i).getD (.simple 0) := by
  rw [← h]
  rfl

theorem flat_mem (n : ℕ) (path : List ℕ) : typeAt (fun _ : ℕ => ⟨flat, false⟩) n path ∈
    [flat, pair, .simple 4, .simple 0] := by
  refine typeAt_mem (by simp) fun t ht i => ?_
  simp only [List.mem_cons, List.not_mem_nil, or_false] at ht
  rcases ht with rfl | rfl | rfl | rfl
  · rcases i with _ | _ | i <;> simp [flat, Ty.fields, Fields.get]
  · rcases i with _ | i <;> simp [pair, Ty.fields, Fields.get]
  · simp [Ty.fields, Fields.get]
  · simp [Ty.fields, Fields.get]

theorem nested_mem (n : ℕ) (path : List ℕ) : typeAt (fun _ : ℕ => ⟨nested, false⟩) n path ∈
    [nested, .union (.cons (.simple 4) none .nil), .simple 4, .simple 0] := by
  refine typeAt_mem (by simp) fun t ht i => ?_
  simp only [List.mem_cons, List.not_mem_nil, or_false] at ht
  rcases ht with rfl | rfl | rfl | rfl
  · rcases i with _ | _ | i <;> simp [nested, Ty.fields, Fields.get]
  · rcases i with _ | i <;> simp [Ty.fields, Fields.get]
  · simp [Ty.fields, Fields.get]
  · simp [Ty.fields, Fields.get]

/-- Whatever field of such a union is asked for, it is no union. -/
theorem flat_field (n i : ℕ) (path : List ℕ) :
    (typeAt (fun _ : ℕ => ⟨flat, false⟩) n (i :: path)).isUnion = false := by
  have hmem := flat_mem n path
  simp only [List.mem_cons, List.not_mem_nil, or_false] at hmem
  rcases hmem with h | h | h | h <;> rw [typeAt_field h]
  · rcases i with _ | _ | i <;> rfl
  · rcases i with _ | i <;> rfl
  · rfl
  · rfl

/-- The number in the struct is written, and the other field of the union read. -/
theorem conflict_spec_flat :
    CGContext.inConflict (fun _ : ℕ => ⟨flat, false⟩) ⟨fun _ => false, fun _ => false⟩
      { effectContext := { writeVars := [.named 0 [0, 0]] } }
      { readVars := [.named 0 [1]] } = true := by
  refine (conflict_spec (fun _ : ℕ => ⟨flat, false⟩) _ fun n i path _ => flat_field n i path).1
    (fun n i path _ => flat_field n i path) _ _ ⟨fun v hv => (nomatch hv), fun v hv => ?_⟩
    ⟨fun v hv => ?_, fun v hv => nomatch hv⟩
    ⟨.named 0 [0, 0], .named 0 [1], ⟨⟨rfl, rfl, trivial⟩, rfl⟩, ⟨⟨rfl, trivial⟩, rfl⟩,
      .inr ⟨.named 0 [], rfl, ⟨rfl, by decide⟩, ⟨rfl, by decide⟩⟩,
      .inl ⟨⟨_, List.mem_singleton_self _, rfl, by decide⟩,
        .inl ⟨_, List.mem_singleton_self _, rfl, by decide⟩⟩⟩
  · rw [List.mem_singleton.mp hv]
    exact ⟨rfl, rfl, trivial⟩
  · rw [List.mem_singleton.mp hv]
    exact ⟨rfl, trivial⟩

/-- The field of the inner union is written, and the number of the outer one
read, and no conflict is reported. -/
theorem not_inConflict_nested : ¬ ∀ (D : ℕ → Decl) (Q : Qualifiers ℕ) (c : CGContext ℕ)
    (b : Effect ℕ), NoUnionInStruct D → c.effectContext.Over D → b.Over D →
    (∀ v, Q.isConst v = false ∧ Q.isVolatile v = false) → c.rwDirective = none →
    Overlap D c.effectContext b → c.inConflict D Q b = true := by
  intro h
  have hstruct : NoUnionInStruct (fun _ : ℕ => (⟨nested, false⟩ : Decl)) := by
    intro n i path hs
    have hmem := nested_mem n path
    simp only [List.mem_cons, List.not_mem_nil, or_false] at hmem
    rcases hmem with h | h | h | h <;> rw [h] at hs <;> cases hs
  have hconflict := h (fun _ : ℕ => ⟨nested, false⟩) ⟨fun _ => false, fun _ => false⟩
    { effectContext := { writeVars := [.named 0 [0, 0]] } } { readVars := [.named 0 [1]] }
    hstruct ⟨fun v hv => absurd hv List.not_mem_nil,
      fun v hv => List.mem_singleton.mp hv ▸ ⟨rfl, rfl, trivial⟩⟩
    ⟨fun v hv => List.mem_singleton.mp hv ▸ ⟨rfl, trivial⟩,
      fun v hv => absurd hv List.not_mem_nil⟩
    (fun _ => ⟨rfl, rfl⟩) rfl
    ⟨.named 0 [0, 0], .named 0 [1], ⟨⟨rfl, rfl, trivial⟩, rfl⟩, ⟨⟨rfl, trivial⟩, rfl⟩,
      .inr ⟨.named 0 [], rfl, ⟨rfl, by decide⟩, ⟨rfl, by decide⟩⟩,
      .inl ⟨⟨_, List.mem_singleton_self _, rfl, by decide⟩,
        .inl ⟨_, List.mem_singleton_self _, rfl, by decide⟩⟩⟩
  revert hconflict
  decide

end Effects

end CLSmith
