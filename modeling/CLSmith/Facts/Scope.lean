import CLSmith.Facts.Assign
import Mathlib.Data.List.Count
import Mathlib.Data.List.Forall2
/-!
# Facts and scopes

`update_facts_for_oos_vars`, which takes the variables that go out of scope
out of an environment. A call of `mark_dead_var` finds one element of a set, so
that as many of a variable and its fields leave the set as the variable is
listed times.
-/

namespace CLSmith

namespace Facts

variable {N : Type} [DecidableEq N]

namespace Variable

/-- The loop of `has_field_var`, up from a variable. -/
def hasFieldVarFrom (v : Variable N) (n : N) : List ℕ → Bool
  | [] => decide (v = named n [])
  | i :: path => decide (v = named n (i :: path)) || hasFieldVarFrom v n path

/-- `has_field_var`. -/
def hasFieldVar (v : Variable N) : Variable N → Bool
  | named n path => hasFieldVarFrom v n path
  | w => decide (v = w)

/-- A variable or a field of it, at any depth. -/
def IsOf (n : N) : Variable N → Prop
  | named m _ => m = n
  | _ => False

instance (n : N) : DecidablePred (IsOf n) := fun v => by
  cases v <;> unfold IsOf <;> infer_instance

end Variable

open Variable

section

variable (D : N → Decl)

/-- **`match`**: a struct variable matches its fields. Any other matches itself only. -/
def Variable.matches (v w : Variable N) : Bool :=
  if (v.type D).isAggregate then decide (v = w) || v.hasFieldVar w else decide (v = w)

/-- `find_variable_in_set`. -/
def findVariableInSet (set : List (Variable N)) (v : Variable N) : Option ℕ :=
  set.findIdx? fun x => x.matches D v

mutual

/-- The loop over the fields, from the index `i` on. -/
def Fields.findInSet (set : List (Variable N)) (n : N) (path : List ℕ) : Fields → ℕ → Option ℕ
  | .nil, _ => none
  | .cons t _ rest, i =>
    match findVariableInSet D set (.named n (i :: path)) with
    | some pos => some pos
    | none =>
      match Ty.findInSet set n (i :: path) t with
      | some pos => some pos
      | none => rest.findInSet set n path (i + 1)

def Ty.findInSet (set : List (Variable N)) (n : N) (path : List ℕ) : Ty → Option ℕ
  | .struct _ fields => fields.findInSet set n path 0
  | .union fields => fields.findInSet set n path 0
  | _ => none

end

/-- **`find_field_variable_in_set`**: where in the set there is a field of the
variable, at any depth. -/
def findFieldVariableInSet (set : List (Variable N)) : Variable N → Option ℕ
  | .named n path => (typeAt D n path).findInSet D set n path
  | _ => none

/-- **`mark_dead_var`**, on the set of a fact; `none` where there is nothing to
update. -/
def markDeadVar (set : List (Variable N)) (v : Variable N) : Option (List (Variable N)) :=
  ((findVariableInSet D set v).or (findFieldVariableInSet D set v)).map fun pos =>
    if (findVariableInSet D set .garbage).isSome then set.eraseIdx pos else set.set pos .garbage

/-- The set with the update. -/
def marked (set : List (Variable N)) (v : Variable N) : List (Variable N) :=
  (markDeadVar D set v).getD set

/-- A fact with the update. -/
def Fact.marked (v : Variable N) : Fact (Variable N) → Fact (Variable N)
  | .pointTo p set => .pointTo p (Facts.marked D set v)
  | f => f

/-- **`update_facts_for_oos_vars`.** Facts about what goes out of scope are dropped,
and in the others the first entry that is such a variable or a field of it becomes
garbage. -/
def updateFactsForOosVars (vars : List (Variable N)) (facts : FactVec (Variable N)) :
    FactVec (Variable N) :=
  let facts := vars.foldl (fun facts v => facts.filter fun f => !v.matches D f.getVar) facts
  vars.foldl (fun facts v => facts.map (Fact.marked D v)) facts

/-- The path of a field that is declared. -/
def declaredAt (n : N) : List ℕ → Prop
  | [] => True
  | i :: path => ((typeAt D n path).fields.get i).isSome ∧ declaredAt n path

/-- A variable that exists. -/
def Variable.Declared : Variable N → Prop
  | named n path => declaredAt D n path
  | _ => True

end

/-! ## Purpose -/

/-- Out of scope with the variables declared under these names. -/
def Dead (names : List N) (v : Variable N) : Prop := ∃ n ∈ names, v.IsOf n

instance (names : List N) : DecidablePred (Dead names) := fun v =>
  inferInstanceAs (Decidable (∃ n ∈ names, v.IsOf n))

/-- An element the scope has nothing to do with. -/
def Other (names : List N) (v : Variable N) : Prop := ¬ Dead names v ∧ v ≠ .garbage

instance (names : List N) : DecidablePred (Other names) := fun v =>
  inferInstanceAs (Decidable (¬ Dead names v ∧ v ≠ .garbage))

/-- What becomes of a fact: a set with something dead in it has garbage, once,
and in every set the others stay. -/
def After (names : List N) : Fact (Variable N) → Fact (Variable N) → Prop
  | .pointTo p s, g => ∃ s', g = .pointTo p s' ∧ ((∀ x ∈ s, ¬ Dead names x) → s' = s) ∧
      ((∃ x ∈ s, Dead names x) → s'.count .garbage = 1) ∧
      s'.filter (Other names) = s.filter (Other names)
  | f, g => g = f

/-- **The dead are killed**, and nothing else. No fact about them is left, no set has
them, and the other facts are as they were but for that. -/
structure Kills (names : List N) (facts result : FactVec (Variable N)) : Prop where
  about : ∀ f ∈ result, ¬ Dead names f.getVar
  pointees : ∀ p s, Fact.pointTo p s ∈ result → ∀ x ∈ s, ¬ Dead names x
  frame : List.Forall₂ (After names) (facts.filter fun f => ¬ Dead names f.getVar) result

/-! ## The searches -/

section Find

variable {D : N → Decl} {v w : Variable N} {n : N} {path : List ℕ} {set : List (Variable N)}
  {pos : ℕ}

omit [DecidableEq N] in
theorem Variable.isOf_iff : v.IsOf n ↔ ∃ path, v = named n path := by
  cases v with
  | named m path =>
    constructor
    · rintro rfl
      exact ⟨path, rfl⟩
    · rintro ⟨path', h⟩
      cases h
      rfl
  | _ => exact ⟨False.elim, fun ⟨_, h⟩ => nomatch h⟩

theorem Variable.matches_self (v : Variable N) : v.matches D v = true := by
  unfold Variable.matches
  split <;> simp

/-- Whatever matches a variable is declared under the same name. -/
theorem Variable.isOf_of_matches (h : v.matches D (named n path) = true) : v.IsOf n := by
  have key : ∀ path, v.hasFieldVarFrom n path = true → v.IsOf n := by
    intro path
    induction path with
    | nil =>
      intro h
      exact isOf_iff.mpr ⟨[], of_decide_eq_true h⟩
    | cons i path ih =>
      intro h
      rcases Bool.or_eq_true_iff.mp h with h | h
      · exact isOf_iff.mpr ⟨i :: path, of_decide_eq_true h⟩
      · exact ih h
  unfold Variable.matches at h
  split at h
  · rcases Bool.or_eq_true_iff.mp h with h | h
    · exact isOf_iff.mpr ⟨path, of_decide_eq_true h⟩
    · exact key path h
  · exact isOf_iff.mpr ⟨path, of_decide_eq_true h⟩

/-- A variable matches itself and its fields. -/
theorem Variable.matches_iff (hw : w.Declared D) :
    (named n []).matches D w = true ↔ w.IsOf n := by
  have up : ∀ (m : N) (path : List ℕ), (named n [] : Variable N).hasFieldVarFrom m path = true ↔
      m = n := by
    intro m path
    induction path with
    | nil =>
      simp only [hasFieldVarFrom, decide_eq_true_eq, named.injEq, and_true]
      exact eq_comm
    | cons i path ih => simpa [hasFieldVarFrom] using ih
  -- only what has fields is above another
  have flat : ∀ (m : N) (i : ℕ) (path : List ℕ), declaredAt D m (i :: path) →
      (typeAt D m []).isAggregate = true := by
    intro m i path
    induction path generalizing i with
    | nil =>
      rintro ⟨hget, -⟩
      unfold typeAt at hget ⊢
      cases hty : (D m).type with
      | struct packed fields => rfl
      | union fields => rfl
      | simple size =>
        rw [hty] at hget
        cases hget
      | pointer t =>
        rw [hty] at hget
        cases hget
    | cons j path ih =>
      rintro ⟨-, hrest⟩
      exact ih j hrest
  unfold Variable.matches
  cases w with
  | named m path =>
    cases path with
    | nil =>
      have hup := up m []
      rw [hasFieldVarFrom, decide_eq_true_eq] at hup
      split
      · rw [Bool.or_eq_true, decide_eq_true_eq]
        show _ ∨ (named n [] : Variable N).hasFieldVarFrom m [] = true ↔ m = n
        rw [hasFieldVarFrom, decide_eq_true_eq, or_self, hup]
      · rw [decide_eq_true_eq, hup]
        rfl
    | cons i path =>
      have hne : (named n [] : Variable N) ≠ named m (i :: path) := by simp
      have hup := up m (i :: path)
      split
      · rw [Bool.or_eq_true, decide_eq_true_eq, or_iff_right hne]
        exact hup
      · next hagg =>
        rw [decide_eq_true_eq]
        refine ⟨fun h => absurd h hne, ?_⟩
        rintro rfl
        exact absurd (flat _ i path hw) hagg
  | _ =>
    split <;> simp [hasFieldVar, IsOf]

theorem findVariableInSet_some (h : findVariableInSet D set (named n path) = some pos) :
    ∃ x, set[pos]? = some x ∧ x.IsOf n := by
  obtain ⟨hlt, hmatch, -⟩ := List.findIdx?_eq_some_iff_getElem.mp h
  exact ⟨set[pos], List.getElem?_eq_getElem hlt, isOf_of_matches hmatch⟩

theorem findVariableInSet_none (h : findVariableInSet D set v = none) : v ∉ set := by
  intro hv
  have hno := List.findIdx?_eq_none_iff.mp h v hv
  rw [matches_self] at hno
  cases hno

mutual

/-- **A field that is found** is one of the variable. -/
theorem Ty.findInSet_some {t : Ty} {path : List ℕ} (h : t.findInSet D set n path = some pos) :
    ∃ x, set[pos]? = some x ∧ x.IsOf n := by
  match t with
  | .struct _ fields => exact Fields.findInSet_some (t := fields) h
  | .union fields => exact Fields.findInSet_some (t := fields) h
  | .simple _ => cases h
  | .pointer _ => cases h

theorem Fields.findInSet_some {t : Fields} {path : List ℕ} {i : ℕ}
    (h : t.findInSet D set n path i = some pos) : ∃ x, set[pos]? = some x ∧ x.IsOf n := by
  match t with
  | .nil => cases h
  | .cons t _ rest =>
    unfold Fields.findInSet at h
    split at h
    · next hfind =>
      cases h
      exact findVariableInSet_some hfind
    · split at h
      · next hfind =>
        cases h
        exact Ty.findInSet_some hfind
      · exact Fields.findInSet_some h

end

/-- Where no field is found, none of a field is there. -/
theorem Fields.findInSet_none {fields : Fields} {i j : ℕ} {t : Ty}
    (h : fields.findInSet D set n path i = none) (hget : fields.get j = some t) :
    named n ((i + j) :: path) ∉ set ∧ t.findInSet D set n ((i + j) :: path) = none := by
  match fields, j with
  | .cons t' _ rest, 0 =>
    cases hget
    unfold Fields.findInSet at h
    split at h
    · cases h
    · next hfind =>
      split at h
      · cases h
      · next hfind' => exact ⟨findVariableInSet_none hfind, hfind'⟩
  | .cons t' _ rest, j + 1 =>
    have hrest : rest.findInSet D set n path (i + 1) = none := by
      unfold Fields.findInSet at h
      split at h
      · cases h
      · split at h
        · cases h
        · exact h
    have := Fields.findInSet_none hrest (j := j) hget
    rwa [Nat.add_assoc, Nat.add_comm 1 j] at this

theorem Ty.findInSet_eq (t : Ty) :
    t.findInSet D set n path = t.fields.findInSet D set n path 0 := by
  cases t <;> rfl

/-- **Where nothing is found** there is neither the variable nor a field of it. -/
theorem not_isOf_of_find (hw : findVariableInSet D set (named n []) = none)
    (hf : findFieldVariableInSet D set (named n []) = none) {x : Variable N} (hx : x ∈ set)
    (hdecl : x.Declared D) : ¬ x.IsOf n := by
  have key : ∀ path, declaredAt D n path →
      named n path ∉ set ∧ (typeAt D n path).findInSet D set n path = none := by
    intro path
    induction path with
    | nil => exact fun _ => ⟨findVariableInSet_none hw, hf⟩
    | cons i path ih =>
      rintro ⟨hget, hrest⟩
      obtain ⟨t, ht⟩ := Option.isSome_iff_exists.mp hget
      have hnone := (ih hrest).2
      rw [Ty.findInSet_eq] at hnone
      have hty : typeAt D n (i :: path) = t := by rw [typeAt, ht, Option.getD_some]
      have := Fields.findInSet_none hnone ht
      rw [Nat.zero_add] at this
      rwa [hty]
  intro hof
  obtain ⟨path, rfl⟩ := isOf_iff.mp hof
  exact (key path hdecl).1 hx

end Find

/-! ## One variable -/

section Mark

variable {D : N → Decl} {n m : N} {names : List N} {set : List (Variable N)}

/-- A set of variables that exist. -/
def AllDeclared (D : N → Decl) (set : List (Variable N)) : Prop := ∀ x ∈ set, x.Declared D

theorem findVariableInSet_garbage :
    (findVariableInSet D set .garbage).isSome = true ↔ .garbage ∈ set := by
  unfold findVariableInSet
  rw [List.findIdx?_isSome, List.any_eq_true]
  constructor
  · rintro ⟨x, hx, hmatch⟩
    have heq : x = .garbage := by
      unfold Variable.matches at hmatch
      split at hmatch
      · simpa [hasFieldVar] using hmatch
      · exact of_decide_eq_true hmatch
    exact heq ▸ hx
  · exact fun h => ⟨.garbage, h, matches_self _⟩

/-- **What one call does**: one element of the variable's leaves the set, and
there is garbage. -/
theorem marked_cases (hset : AllDeclared D set) :
    ((∀ x ∈ set, ¬ x.IsOf n) ∧ marked D set (named n []) = set) ∨
    ∃ A x B, set = A ++ x :: B ∧ x.IsOf n ∧
      marked D set (named n []) = if .garbage ∈ set then A ++ B else A ++ .garbage :: B := by
  unfold marked markDeadVar
  cases hpos : (findVariableInSet D set (named n [])).or
      (findFieldVariableInSet D set (named n [])) with
  | none =>
    rw [Option.or_eq_none_iff] at hpos
    exact .inl ⟨fun x hx => not_isOf_of_find hpos.1 hpos.2 hx (hset x hx), rfl⟩
  | some pos =>
    have hfound : ∃ x, set[pos]? = some x ∧ x.IsOf n := by
      rcases Option.or_eq_some_iff.mp hpos with h | ⟨-, h⟩
      · exact findVariableInSet_some h
      · exact Ty.findInSet_some h
    obtain ⟨x, hx, hof⟩ := hfound
    obtain ⟨hlt, rfl⟩ := List.getElem?_eq_some_iff.mp hx
    refine .inr ⟨set.take pos, set[pos], set.drop (pos + 1), ?_, hof, ?_⟩
    · rw [List.getElem_cons_drop, List.take_append_drop]
    · rw [Option.map_some, Option.getD_some]
      simp only [findVariableInSet_garbage]
      split
      · rw [List.eraseIdx_eq_take_drop_succ]
      · rw [List.set_eq_take_append_cons_drop, if_pos hlt]

theorem marked_declared (hset : AllDeclared D set) :
    AllDeclared D (marked D set (named n [])) := by
  rcases marked_cases (n := n) hset with ⟨-, h⟩ | ⟨A, x, B, rfl, -, h⟩
  · rwa [h]
  · rw [h]
    intro y hy
    split at hy
    · rcases List.mem_append.mp hy with hy | hy
      · exact hset y (List.mem_append_left _ hy)
      · exact hset y (List.mem_append_right _ (List.mem_cons_of_mem _ hy))
    · rcases List.mem_append.mp hy with hy | hy
      · exact hset y (List.mem_append_left _ hy)
      · rcases List.mem_cons.mp hy with rfl | hy
        · exact trivial
        · exact hset y (List.mem_append_right _ (List.mem_cons_of_mem _ hy))

/-- One element fewer of the variable's, and as many as before of others'. -/
theorem countP_marked (hset : AllDeclared D set) :
    (marked D set (named n [])).countP (IsOf m) =
      set.countP (IsOf m) - if n = m then 1 else 0 := by
  have hgarbage : ¬ (Variable.garbage : Variable N).IsOf m := id
  rcases marked_cases (n := n) hset with ⟨hno, h⟩ | ⟨A, x, B, rfl, hof, h⟩
  · rw [h]
    split
    · next heq =>
      rw [List.countP_eq_zero.mpr (by simpa [← heq] using hno)]
    · rfl
  · have hx : x.IsOf m ↔ n = m := by
      obtain ⟨path, rfl⟩ := isOf_iff.mp hof
      exact Iff.rfl
    have hleft : (A ++ B).countP (IsOf m) =
        (A ++ x :: B).countP (IsOf m) - if n = m then 1 else 0 := by
      rw [List.countP_append, List.countP_append, List.countP_cons]
      by_cases heq : n = m
      · rw [if_pos heq, if_pos (by simpa using hx.mpr heq)]
        omega
      · rw [if_neg heq, if_neg (by simpa using fun h => heq (hx.mp h))]
        rfl
    rw [h, ← hleft]
    split
    · rfl
    · rw [List.countP_append, List.countP_append, List.countP_cons_of_neg (by simpa using hgarbage)]

/-- The others stay. -/
theorem filter_marked (hset : AllDeclared D set) (hn : n ∈ names) :
    (marked D set (named n [])).filter (Other names) = set.filter (Other names) := by
  rcases marked_cases (n := n) hset with ⟨-, h⟩ | ⟨A, x, B, rfl, hof, h⟩
  · rw [h]
  · have hx : ¬ Other names x := fun hother => hother.1 ⟨n, hn, hof⟩
    have hgarbage : ¬ Other names (.garbage : Variable N) := fun hother => hother.2 rfl
    have hleft : (A ++ B).filter (Other names) = (A ++ x :: B).filter (Other names) := by
      rw [List.filter_append, List.filter_append, List.filter_cons_of_neg (by simpa using hx)]
    rw [h, ← hleft]
    split
    · rfl
    · rw [List.filter_append, List.filter_append,
        List.filter_cons_of_neg (by simpa using hgarbage)]

/-- **Garbage comes once**, with the first that leaves. -/
theorem count_garbage_marked (hset : AllDeclared D set) (hle : set.count .garbage ≤ 1) :
    (marked D set (named n [])).count .garbage =
      if ∃ x ∈ set, x.IsOf n then 1 else set.count .garbage := by
  rcases marked_cases (n := n) hset with ⟨hno, h⟩ | ⟨A, x, B, rfl, hof, h⟩
  · rw [h, if_neg (fun ⟨x, hx, hof⟩ => hno x hx hof)]
  · have hx : x ≠ .garbage := by
      rintro rfl
      exact hof
    have hex : ∃ y ∈ A ++ x :: B, y.IsOf n := ⟨x, by simp, hof⟩
    rw [h, if_pos hex]
    rw [List.count_append, List.count_cons_of_ne hx] at hle
    split
    · next hmem =>
      have hpos := List.count_pos_iff.mpr hmem
      rw [List.count_append, List.count_cons_of_ne hx] at hpos
      rw [List.count_append]
      omega
    · next hmem =>
      have hzero := List.count_eq_zero.mpr hmem
      rw [List.count_append, List.count_cons_of_ne hx] at hzero
      rw [List.count_append, List.count_cons_self]
      omega

end Mark

/-! ## All variables -/

section All

variable {D : N → Decl} {n : N} {names : List N} {set : List (Variable N)}

/-- A set after the calls for all the names. -/
def markedAll (D : N → Decl) (names : List N) (set : List (Variable N)) : List (Variable N) :=
  names.foldl (fun set n => marked D set (named n [])) set

theorem markedAll_cons :
    markedAll D (n :: names) set = markedAll D names (marked D set (named n [])) := rfl

/-- **As many leave as the name is listed times.** -/
theorem countP_markedAll (hset : AllDeclared D set) :
    (markedAll D names set).countP (IsOf n) = set.countP (IsOf n) - names.count n := by
  induction names generalizing set with
  | nil => rfl
  | cons m names ih =>
    rw [markedAll_cons, ih (marked_declared hset), countP_marked hset, List.count_cons]
    simp only [beq_iff_eq]
    omega

theorem filter_markedAll {names' : List N} (hset : AllDeclared D set) (hsub : names ⊆ names') :
    (markedAll D names set).filter (Other names') = set.filter (Other names') := by
  induction names generalizing set with
  | nil => rfl
  | cons m names ih =>
    obtain ⟨hm, hsub⟩ := List.cons_subset.mp hsub
    rw [markedAll_cons, ih (marked_declared hset) hsub, filter_marked hset hm]

/-- Without anything dead, nothing changes. -/
theorem markedAll_of_alive (hset : AllDeclared D set) (h : ∀ x ∈ set, ¬ Dead names x) :
    markedAll D names set = set := by
  induction names generalizing set with
  | nil => rfl
  | cons m names ih =>
    have hm : marked D set (named m []) = set := by
      rcases marked_cases (n := m) hset with ⟨-, hm⟩ | ⟨A, x, B, rfl, hof, -⟩
      · exact hm
      · exact absurd ⟨m, List.mem_cons_self, hof⟩ (h x (by simp))
    rw [markedAll_cons, hm]
    exact ih hset fun x hx ⟨k, hk, hof⟩ => h x hx ⟨k, List.mem_cons_of_mem _ hk, hof⟩

/-- **Where something is dead there is garbage, once.** -/
theorem count_garbage_markedAll (hset : AllDeclared D set) (hle : set.count .garbage ≤ 1) :
    (markedAll D names set).count .garbage =
      if ∃ x ∈ set, Dead names x then 1 else set.count .garbage := by
  induction names generalizing set with
  | nil =>
    rw [if_neg]
    · rfl
    · rintro ⟨x, -, k, hk, -⟩
      exact absurd hk List.not_mem_nil
  | cons m names ih =>
    have hcount := count_garbage_marked (n := m) hset hle
    have hle' : (marked D set (named m [])).count .garbage ≤ 1 := by
      rw [hcount]
      split
      · exact Nat.le_refl 1
      · exact hle
    rw [markedAll_cons, ih (marked_declared hset) hle', hcount]
    by_cases hm : ∃ x ∈ set, x.IsOf m
    · have hdead : ∃ x ∈ set, Dead (m :: names) x :=
        hm.imp fun x hx => ⟨hx.1, m, List.mem_cons_self, hx.2⟩
      rw [if_pos hm, if_pos hdead, ite_self]
    · -- the call for `m` changes nothing
      have hsame : marked D set (named m []) = set := by
        rcases marked_cases (n := m) hset with ⟨-, h⟩ | ⟨A, x, B, rfl, hof, -⟩
        · exact h
        · exact absurd ⟨x, by simp, hof⟩ hm
      have hiff : (∃ x ∈ set, Dead names x) ↔ ∃ x ∈ set, Dead (m :: names) x := by
        constructor
        · rintro ⟨x, hx, k, hk, hof⟩
          exact ⟨x, hx, k, List.mem_cons_of_mem _ hk, hof⟩
        · rintro ⟨x, hx, k, hk, hof⟩
          rcases List.mem_cons.mp hk with rfl | hk
          · exact absurd ⟨x, hx, hof⟩ hm
          · exact ⟨x, hx, k, hk, hof⟩
      rw [if_neg hm, hsame]
      simp only [hiff]

end All

/-! ## Environments -/

section Envs

variable {D : N → Decl} {names : List N} {facts : FactVec (Variable N)}

/-- A fact about a variable that exists, with a set of such without duplicates. -/
def Fact.Declared (D : N → Decl) (f : Fact (Variable N)) : Prop :=
  f.getVar.Declared D ∧
    match f with
    | .pointTo _ s => s.Nodup ∧ AllDeclared D s
    | .unionWrite _ _ => True

/-- A fact after the calls for all the names. -/
def Fact.markedAll (D : N → Decl) (names : List N) : Fact (Variable N) → Fact (Variable N)
  | .pointTo p set => .pointTo p (Facts.markedAll D names set)
  | f => f

theorem Fact.getVar_markedAll (f : Fact (Variable N)) :
    (f.markedAll D names).getVar = f.getVar := by
  cases f <;> rfl

theorem foldl_marked (facts : FactVec (Variable N)) :
    (names.map (named · [])).foldl (fun facts v => facts.map (Fact.marked D v)) facts =
      facts.map (Fact.markedAll D names) := by
  induction names generalizing facts with
  | nil =>
    refine (List.map_id' facts).symm.trans (List.map_congr_left fun f _ => ?_)
    cases f <;> rfl
  | cons n names ih =>
    rw [List.map_cons, List.foldl_cons, ih, List.map_map]
    refine List.map_congr_left fun f _ => ?_
    cases f <;> rfl

theorem foldl_filter_matches (hfacts : ∀ f ∈ facts, f.Declared D) :
    (names.map (named · [])).foldl
        (fun facts v => facts.filter fun f => !v.matches D f.getVar) facts =
      facts.filter fun f => ¬ Dead names f.getVar := by
  induction names generalizing facts with
  | nil =>
    refine (List.filter_eq_self.mpr fun f _ => ?_).symm
    simp [Dead]
  | cons n names ih =>
    rw [List.map_cons, List.foldl_cons, ih fun f hf => hfacts f (List.mem_of_mem_filter hf),
      List.filter_filter]
    refine List.filter_congr fun f hf => ?_
    have hmatch := matches_iff (n := n) (hfacts f hf).1
    have hdead : Dead (n :: names) f.getVar ↔ f.getVar.IsOf n ∨ Dead names f.getVar := by
      unfold Dead
      simp
    rw [Bool.eq_iff_iff]
    simp only [Bool.and_eq_true, Bool.not_eq_true', decide_eq_true_eq, hdead, not_or, ← hmatch,
      Bool.not_eq_true]
    exact and_comm

/-- **What leaving a scope does**: the facts about the dead go, and the calls for
all the names are made on the sets of the others. -/
theorem updateFactsForOosVars_eq (hfacts : ∀ f ∈ facts, f.Declared D) :
    updateFactsForOosVars D (names.map (named · [])) facts =
      (facts.filter fun f => ¬ Dead names f.getVar).map (Fact.markedAll D names) := by
  unfold updateFactsForOosVars
  simp only
  rw [foldl_filter_matches hfacts, foldl_marked]

theorem after_markedAll {f : Fact (Variable N)} (hf : f.Declared D) :
    After names f (f.markedAll D names) := by
  cases f with
  | pointTo p s =>
    obtain ⟨-, hnd, hdecl⟩ := hf
    have hle : s.count .garbage ≤ 1 := List.nodup_iff_count_le_one.mp hnd _
    refine ⟨markedAll D names s, rfl, markedAll_of_alive hdecl, fun hdead => ?_,
      filter_markedAll hdecl (List.Subset.refl names)⟩
    rw [count_garbage_markedAll hdecl hle, if_pos hdead]
  | unionWrite v fid => rfl

/-- **When leaving a scope kills the dead**: exactly where no set of the facts that
stay has more of a variable and its fields than the variable is listed times. Of each
set one element becomes garbage for each place in the list, and the others stay. -/
theorem kills_iff (hfacts : ∀ f ∈ facts, f.Declared D) :
    Kills names facts (updateFactsForOosVars D (names.map (named · [])) facts) ↔
      ∀ p s, Fact.pointTo p s ∈ facts → ¬ Dead names p →
        ∀ n ∈ names, s.countP (IsOf n) ≤ names.count n := by
  rw [updateFactsForOosVars_eq hfacts]
  constructor
  · intro h p s hmem hp n hn
    have hres : Fact.pointTo p (markedAll D names s) ∈
        (facts.filter fun f => ¬ Dead names f.getVar).map (Fact.markedAll D names) :=
      List.mem_map.mpr ⟨.pointTo p s, List.mem_filter.mpr ⟨hmem, decide_eq_true hp⟩, rfl⟩
    -- A variable that dies may not be pointed to afterwards, so no occurrence of it is left to
    -- count.
    have hzero : (markedAll D names s).countP (IsOf n) = 0 :=
      List.countP_eq_zero.mpr fun x hx => by
        have := h.pointees p _ hres x hx
        simpa using fun hof => this ⟨n, hn, hof⟩
    rw [countP_markedAll (hfacts _ hmem).2.2] at hzero
    omega
  · intro h
    refine ⟨fun g hg => ?_, fun p s hg x hx => ?_, ?_⟩
    · obtain ⟨f, hf, rfl⟩ := List.mem_map.mp hg
      rw [Fact.getVar_markedAll]
      simpa using (List.mem_filter.mp hf).2
    · obtain ⟨f, hf, heq⟩ := List.mem_map.mp hg
      obtain ⟨hmem, halive⟩ := List.mem_filter.mp hf
      cases f with
      | unionWrite v fid => cases heq
      | pointTo p' s' =>
        cases heq
        rintro ⟨n, hn, hof⟩
        have hcount : (markedAll D names s').countP (IsOf n) = s'.countP (IsOf n) - names.count n :=
          countP_markedAll (hfacts _ hmem).2.2
        have hle := h p s' hmem (of_decide_eq_true halive) n hn
        rw [Nat.sub_eq_zero_of_le hle, List.countP_eq_zero] at hcount
        exact hcount x hx (by simpa using hof)
    · rw [List.forall₂_map_right_iff, List.forall₂_same]
      intro f hf
      exact after_markedAll (hfacts f (List.mem_of_mem_filter hf))

/-- A structure of two numbers, under `false`, and a pointer. -/
def twoFields : Bool → Decl
  | false => ⟨.struct false (.cons (.simple 4) none (.cons (.simple 4) none .nil)), false⟩
  | true => ⟨.pointer (.simple 4), false⟩

/-- Only one of the fields is pointed to. -/
theorem kills_iff_field :
    Kills [false] [.pointTo (named true []) [named false [0]]]
      (updateFactsForOosVars twoFields ([false].map (named · []))
        [.pointTo (named true []) [named false [0]]]) := by
  refine (kills_iff fun f hf => ?_).mpr fun p s hmem hp n hn => ?_
  · rw [List.mem_singleton.mp hf]
    refine ⟨trivial, List.nodup_singleton _, fun x hx => ?_⟩
    rw [List.mem_singleton.mp hx]
    exact ⟨rfl, trivial⟩
  · rw [List.mem_singleton] at hmem hn
    cases hmem
    rw [hn]
    decide

/-- The second field stays: a pointer to one of the two, when the structure goes. -/
theorem not_kills_fields :
    ¬ Kills [false] [.pointTo (named true []) [named false [0], named false [1]]]
      (updateFactsForOosVars twoFields [named false []]
        [.pointTo (named true []) [named false [0], named false [1]]]) := by
  have hres : updateFactsForOosVars twoFields [named false []]
      [.pointTo (named true []) [named false [0], named false [1]]] =
      [.pointTo (named true []) [.garbage, named false [1]]] := by decide
  rw [hres]
  intro h
  exact h.pointees _ _ List.mem_cons_self (named false [1]) (by simp)
    ⟨false, List.mem_cons_self, rfl⟩

end Envs

end Facts

end CLSmith
