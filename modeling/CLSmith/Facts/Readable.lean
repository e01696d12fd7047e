import CLSmith.Facts.Run
import CLSmith.Facts.Merge
/-!
# Unions are read through the field last written

Where no write goes unnoticed by the facts, a field that
`is_nonreadable_field` lets through is part of the field last written, and
only there.
-/

namespace CLSmith

namespace Facts

open Common

/-! ## Last written fields after an update -/

section Fid

variable {N : Type} [DecidableEq N] {facts inputs : FactVec (Variable N)} {v w : Variable N}

open FactUnion (lastWrittenFid)

@[simp] theorem lastWrittenFid_nil : lastWrittenFid ([] : FactVec (Variable N)) v = none := rfl

@[simp] theorem lastWrittenFid_pointTo (s : List (Variable N)) :
    lastWrittenFid (.pointTo w s :: facts) v = lastWrittenFid facts v := by
  have hno : (Fact.unionWrite v top).isRelated (.pointTo w s) = false := rfl
  unfold lastWrittenFid findRelatedFact
  rw [List.find?_cons, hno]

theorem isRelated_unionWrite (j k : ℤ) :
    (Fact.unionWrite v j).isRelated (.unionWrite w k) = true ↔ v = w := by
  simp [Fact.isRelated_iff, Fact.key, Fact.eCat, Fact.getVar]

@[simp] theorem lastWrittenFid_unionWrite (k : ℤ) :
    lastWrittenFid (.unionWrite w k :: facts) v =
      if v = w then some k else lastWrittenFid facts v := by
  unfold lastWrittenFid findRelatedFact
  by_cases h : v = w
  · rw [List.find?_cons_of_pos ((isRelated_unionWrite top k).mpr h), if_pos h]
  · have hrel := mt (isRelated_unionWrite top k).mp h
    rw [List.find?_cons_of_neg hrel, if_neg h]

/-- The field of both, or none known. -/
def joinFid (j k : ℤ) : ℤ := if j = k then j else bottom

theorem join_unionWrite (j k : ℤ) :
    (Fact.unionWrite v j).join (.unionWrite v k) = .unionWrite v (joinFid j k) := by
  simp only [Fact.join, Fact.imply, joinFid, if_true]
  grind

/-- Merging a points-to fact concerns no union. -/
theorem lastWrittenFid_mergeFact_pointTo (s : List (Variable N)) :
    lastWrittenFid (mergeFact facts (.pointTo w s)).1 v = lastWrittenFid facts v := by
  induction facts with
  | nil => simp [mergeFact]
  | cons f facts ih =>
    unfold mergeFact
    cases f with
    | pointTo u t =>
      split_ifs
      · rfl
      · simp only [Fact.join]
        split_ifs <;> simp
      · simpa using ih
    | unionWrite u k =>
      have hno : (Fact.unionWrite u k).isRelated (.pointTo w s) = false := rfl
      simp only [hno, Bool.false_eq_true, if_false, lastWrittenFid_unionWrite, ih]

/-- **Merging a union's fact** joins it with the one there is. -/
theorem lastWrittenFid_mergeFact (k : ℤ) :
    lastWrittenFid (mergeFact facts (.unionWrite w k)).1 v =
      if v = w then some (((lastWrittenFid facts w).map (joinFid · k)).getD k)
      else lastWrittenFid facts v := by
  induction facts with
  | nil => simp [mergeFact]
  | cons f facts ih =>
    unfold mergeFact
    cases f with
    | pointTo u t =>
      have hno : (Fact.pointTo u t).isRelated (.unionWrite w k) = false := rfl
      simp only [hno, Bool.false_eq_true, if_false, lastWrittenFid_pointTo, ih]
    | unionWrite u j =>
      by_cases hu : u = w
      · subst hu
        have hrel := (isRelated_unionWrite (v := u) j k).mpr rfl
        have himply : (Fact.unionWrite u j).imply (.unionWrite u k) = true → joinFid j k = j := by
          simp only [Fact.imply, if_true, joinFid]
          grind
        simp only [hrel, if_true]
        split_ifs with hj hv hv
        · simp [hv, himply hj]
        · simp [hv]
        · rw [join_unionWrite]
          simp only [joinFid, lastWrittenFid_unionWrite, hv, if_true, Option.map_some,
            Option.getD_some]
          grind
        · rw [join_unionWrite]
          simp [hv]
      · have hrel := mt (isRelated_unionWrite j k).mp hu
        have hne : ¬ w = u := fun h => hu h.symm
        rw [if_neg hrel]
        simp only [lastWrittenFid_unionWrite, ih, if_neg hne]
        by_cases h1 : v = u
        · have h2 : ¬ v = w := fun h => hu (h1.symm.trans h)
          rw [if_pos h1, if_neg h2, if_pos h1]
        · rw [if_neg h1, if_neg h1]

/-- Renewing a union's fact puts it in the other's place. -/
theorem lastWrittenFid_renewFact (k : ℤ) :
    lastWrittenFid (renewFact facts (.unionWrite w k)) v =
      if v = w then some k else lastWrittenFid facts v := by
  induction facts with
  | nil => simp [renewFact]
  | cons f facts ih =>
    unfold renewFact
    cases f with
    | pointTo u t =>
      have hno : (Fact.unionWrite w k).isRelated (.pointTo u t) = false := rfl
      simp only [hno, Bool.false_eq_true, if_false, lastWrittenFid_pointTo, ih]
    | unionWrite u j =>
      by_cases hu : w = u
      · subst hu
        have hrel := (isRelated_unionWrite (v := w) k j).mpr rfl
        simp only [hrel, if_true]
        split_ifs with heq hv hv
        · have hjk : k = j := by simpa [Fact.equal] using heq
          simp [hv, hjk]
        · simp [hv]
        · simp [hv]
        · simp [hv]
      · have hrel := mt (isRelated_unionWrite k j).mp hu
        rw [if_neg hrel]
        simp only [lastWrittenFid_unionWrite, ih]
        by_cases hv : v = w
        · simp [hv, hu]
        · simp [hv]

theorem lastWrittenFid_renewFact_pointTo (s : List (Variable N)) :
    lastWrittenFid (renewFact facts (.pointTo w s)) v = lastWrittenFid facts v := by
  induction facts with
  | nil => simp [renewFact]
  | cons f facts ih =>
    unfold renewFact
    cases f with
    | pointTo u t => split_ifs <;> simp [ih]
    | unionWrite u k =>
      have hno : (Fact.pointTo w s).isRelated (.unionWrite u k) = false := rfl
      simp only [hno, Bool.false_eq_true, if_false, lastWrittenFid_unionWrite, ih]

theorem mem_of_lastWrittenFid {k : ℤ} (h : lastWrittenFid facts v = some k) :
    .unionWrite v k ∈ facts := by
  induction facts with
  | nil => simp at h
  | cons f facts ih =>
    cases f with
    | pointTo u t =>
      rw [lastWrittenFid_pointTo] at h
      exact List.mem_cons_of_mem _ (ih h)
    | unionWrite u j =>
      rw [lastWrittenFid_unionWrite] at h
      split_ifs at h with hu
      · obtain rfl := hu
        obtain rfl : j = k := by simpa using h
        exact List.mem_cons_self
      · exact List.mem_cons_of_mem _ (ih h)

/-- The field `k` says no more than `j`. -/
def SaysLess (k j : ℤ) : Prop := k = bottom ∨ k = j

theorem SaysLess.trans {i j k : ℤ} (h : SaysLess k j) (h' : SaysLess j i) : SaysLess k i := by
  unfold SaysLess at *
  omega

theorem saysLess_joinFid (j k : ℤ) : SaysLess (joinFid j k) j ∧ SaysLess (joinFid j k) k := by
  unfold SaysLess joinFid
  split_ifs <;> omega

/-- What is known before a fact is merged in is known after, or given up. -/
theorem mergeFact_left {j : ℤ} (f : Fact (Variable N)) (h : lastWrittenFid facts v = some j) :
    ∃ k, lastWrittenFid (mergeFact facts f).1 v = some k ∧ SaysLess k j := by
  cases f with
  | pointTo w s => exact ⟨j, by rw [lastWrittenFid_mergeFact_pointTo, h], .inr rfl⟩
  | unionWrite w i =>
    rw [lastWrittenFid_mergeFact]
    by_cases hv : v = w
    · subst hv
      rw [if_pos rfl, h]
      exact ⟨joinFid j i, rfl, (saysLess_joinFid j i).1⟩
    · rw [if_neg hv]
      exact ⟨j, h, .inr rfl⟩

theorem mergeFacts_left (facts : FactVec (Variable N)) {j : ℤ}
    (h : lastWrittenFid inputs v = some j) :
    ∃ k, lastWrittenFid (mergeFacts inputs facts).1 v = some k ∧ SaysLess k j := by
  induction facts generalizing inputs j with
  | nil => exact ⟨j, h, .inr rfl⟩
  | cons f facts ih =>
    obtain ⟨i, hi, hij⟩ := mergeFact_left f h
    obtain ⟨k, hk, hki⟩ := ih hi
    exact ⟨k, hk, hki.trans hij⟩

/-- What a fact that is merged in says is known after, or given up. -/
theorem mergeFacts_of_mem {i : ℤ} (h : .unionWrite v i ∈ facts) :
    ∃ k, lastWrittenFid (mergeFacts inputs facts).1 v = some k ∧ SaysLess k i := by
  induction facts generalizing inputs with
  | nil => cases h
  | cons f facts ih =>
    rcases List.mem_cons.mp h with rfl | h
    · have hone : ∃ j, lastWrittenFid (mergeFact inputs (.unionWrite v i)).1 v = some j ∧
          SaysLess j i := by
        rw [lastWrittenFid_mergeFact, if_pos rfl]
        cases hv : lastWrittenFid inputs v with
        | none => exact ⟨i, rfl, .inr rfl⟩
        | some j => exact ⟨joinFid j i, rfl, (saysLess_joinFid j i).2⟩
      obtain ⟨j, hj, hji⟩ := hone
      obtain ⟨k, hk, hkj⟩ := mergeFacts_left facts hj
      exact ⟨k, hk, hkj.trans hji⟩
    · exact ih h

theorem mergeFacts_right {j : ℤ} (h : lastWrittenFid facts v = some j) :
    ∃ k, lastWrittenFid (mergeFacts inputs facts).1 v = some k ∧ SaysLess k j :=
  mergeFacts_of_mem (mem_of_lastWrittenFid h)

section Update

variable (D : N → Decl)

/-- Facts of pointers leave those of unions alone. -/
theorem updateFacts_pointTo (h : ∀ f ∈ facts, f.eCat = .pointTo) :
    lastWrittenFid (updateFacts D inputs facts) v = lastWrittenFid inputs v := by
  have hmerge : ∀ facts : FactVec (Variable N), (∀ f ∈ facts, f.eCat = .pointTo) →
      ∀ inputs, lastWrittenFid (mergeFacts inputs facts).1 v = lastWrittenFid inputs v := by
    intro facts
    induction facts with
    | nil => exact fun _ _ => rfl
    | cons f facts ih =>
      intro h inputs
      have hf := h f List.mem_cons_self
      cases f with
      | pointTo w s =>
        refine (ih (fun g hg => h g (List.mem_cons_of_mem _ hg)) _).trans ?_
        exact lastWrittenFid_mergeFact_pointTo s
      | unionWrite w i => cases hf
  match facts, h with
  | [], h => exact hmerge [] h inputs
  | [f], h =>
    have hf := h f List.mem_cons_self
    cases f with
    | pointTo w s =>
      simp only [updateFacts]
      split_ifs
      · exact lastWrittenFid_mergeFact_pointTo s
      · exact lastWrittenFid_renewFact_pointTo s
    | unionWrite w i => cases hf
  | f :: g :: facts, h => exact hmerge (f :: g :: facts) h inputs

/-- What is known before an update is known after or given up, unless the
update is one fact of the variable, which is no array. -/
theorem updateFacts_left (facts : FactVec (Variable N)) {j : ℤ}
    (h : lastWrittenFid inputs v = some j) :
    ∃ k, lastWrittenFid (updateFacts D inputs facts) v = some k ∧
      (SaysLess k j ∨ facts = [.unionWrite v k] ∧ v.isArray D = false) := by
  have hmerge : ∀ facts, ∃ k, lastWrittenFid (mergeFacts inputs facts).1 v = some k ∧
      (SaysLess k j ∨ facts = [.unionWrite v k] ∧ v.isArray D = false) := by
    intro facts
    obtain ⟨k, hk, hkj⟩ := mergeFacts_left facts h
    exact ⟨k, hk, .inl hkj⟩
  match facts with
  | [] => exact hmerge []
  | [f] =>
    simp only [updateFacts]
    by_cases harr : f.getVar.isArray D
    · rw [if_pos harr]
      exact hmerge [f]
    · rw [if_neg harr]
      cases f with
      | pointTo w s => exact ⟨j, by rw [lastWrittenFid_renewFact_pointTo, h], .inl (.inr rfl)⟩
      | unionWrite w i =>
        rw [lastWrittenFid_renewFact]
        by_cases hv : v = w
        · subst hv
          exact ⟨i, if_pos rfl, .inr ⟨rfl, by simpa [Fact.getVar] using harr⟩⟩
        · exact ⟨j, by rw [if_neg hv, h], .inl (.inr rfl)⟩
  | f :: g :: facts => exact hmerge (f :: g :: facts)

/-- What a fact of the update says is known after, or given up. -/
theorem updateFacts_of_mem (inputs : FactVec (Variable N)) {i : ℤ}
    (h : .unionWrite v i ∈ facts) :
    ∃ k, lastWrittenFid (updateFacts D inputs facts) v = some k ∧ SaysLess k i := by
  match facts, h with
  | [f], h =>
    obtain rfl : .unionWrite v i = f := List.mem_singleton.mp h
    simp only [updateFacts]
    split_ifs
    · exact mergeFacts_of_mem (List.mem_singleton_self (Fact.unionWrite v i))
    · exact ⟨i, by rw [lastWrittenFid_renewFact, if_pos rfl], .inr rfl⟩
  | f :: g :: facts, h => exact mergeFacts_of_mem h

/-! ## What the transfer functions conclude -/

theorem mergeFact_pointTo {f : Fact (Variable N)} (h : ∀ g ∈ facts, g.eCat = .pointTo)
    (hf : f.eCat = .pointTo) : ∀ g ∈ (mergeFact facts f).1, g.eCat = .pointTo := by
  induction facts with
  | nil => simpa [mergeFact] using hf
  | cons g facts ih =>
    have hg := h g List.mem_cons_self
    have hrest := fun g' hg' => h g' (List.mem_cons_of_mem g hg')
    have hjoin : (f.join g).eCat = .pointTo := by
      cases f with
      | pointTo w s =>
        cases g with
        | pointTo u t =>
          simp only [Fact.join]
          split_ifs <;> rfl
        | unionWrite u t => cases hg
      | unionWrite w s => cases hf
    unfold mergeFact
    split_ifs
    · exact List.forall_mem_cons.mpr ⟨hg, hrest⟩
    · exact List.forall_mem_cons.mpr ⟨hjoin, hrest⟩
    · exact List.forall_mem_cons.mpr ⟨hg, ih hrest⟩

theorem mergeFacts_pointTo (h : ∀ g ∈ inputs, g.eCat = .pointTo)
    (h' : ∀ g ∈ facts, g.eCat = .pointTo) :
    ∀ g ∈ (mergeFacts inputs facts).1, g.eCat = .pointTo := by
  induction facts generalizing inputs with
  | nil => exact h
  | cons f facts ih =>
    have hf := mergeFact_pointTo h (h' f List.mem_cons_self)
    exact ih hf fun g hg => h' g (List.mem_cons_of_mem f hg)

/-- `FactPointTo` concludes nothing of unions' fields. -/
theorem FactPointTo.rhsToLhsTransfer_pointTo (lvars : List (Variable N)) (rhs : Expr N) :
    ∀ f ∈ FactPointTo.rhsToLhsTransfer D facts lvars rhs, f.eCat = .pointTo := by
  -- every fact comes from `make_facts`, or from the merge of such ones
  have hmake : ∀ set : List (Variable N),
      ∀ f ∈ FactPointTo.makeFacts lvars set, f.eCat = .pointTo := by
    intro set f hf
    obtain ⟨v, -, rfl⟩ := List.mem_map.mp hf
    rfl
  have hagg : ∀ (vars : List (Variable N)) ret, (∀ f ∈ ret, f.eCat = .pointTo) →
      ∀ f ∈ FactPointTo.aggregateFacts D facts lvars ret vars, f.eCat = .pointTo := by
    intro vars
    induction vars with
    | nil => exact fun ret h => h
    | cons v vars ih =>
      intro ret h
      refine ih _ (mergeFacts_pointTo h fun f hf => ?_)
      obtain ⟨p, -, rfl⟩ := List.mem_map.mp hf
      rfl
  have hnil : ∀ f ∈ ([] : FactVec (Variable N)), f.eCat = .pointTo := fun f hf => nomatch hf
  induction rhs with
  | constant t z f =>
    unfold FactPointTo.rhsToLhsTransfer
    split_ifs
    · exact hnil
    · exact hmake _
    · exact hmake _
    · dsimp only
      split
      · exact hmake _
      · split
        · split
          · exact hmake _
          · exact hmake _
        · exact hnil
  | var v t =>
    unfold FactPointTo.rhsToLhsTransfer
    split_ifs
    · exact hnil
    · exact hmake _
    · exact hmake _
    · dsimp only
      split_ifs
      · exact hmake _
      · exact hagg _ _ hnil
      · exact hmake _
  | function t z =>
    unfold FactPointTo.rhsToLhsTransfer
    split_ifs
    · exact hnil
    · exact hmake _
    · exact hmake _
    · exact hnil
  | assignment l r ih =>
    unfold FactPointTo.rhsToLhsTransfer
    split_ifs
    · exact hnil
    · exact hmake _
    · exact hmake _
    · exact ih
  | comma l r _ ih =>
    unfold FactPointTo.rhsToLhsTransfer
    split_ifs
    · exact hnil
    · exact hmake _
    · exact hmake _
    · exact ih

/-- **The points-to update** leaves the facts of unions alone. -/
theorem lastWrittenFid_pointToUpdated (lhs : Lhs N) (rhs : Expr N) :
    lastWrittenFid (pointToUpdated D lhs rhs facts) v = lastWrittenFid facts v := by
  refine updateFacts_pointTo D fun f hf => ?_
  unfold FactPointTo.abstractFactForAssign at hf
  split_ifs at hf
  · exact FactPointTo.rhsToLhsTransfer_pointTo D _ _ f hf
  · obtain ⟨v, -, hv⟩ := List.mem_flatMap.mp hf
    exact FactPointTo.rhsToLhsTransfer_pointTo D _ _ f hv

/-- The joined fact says no more than that of any of the variables. -/
theorem joinVarFacts_saysLess (facts : FactVec (Variable N)) (vars : List (Variable N))
    (u : Variable N) (m : ℤ) :
    ∃ u' k, FactUnion.joinVarFacts facts (some (.unionWrite u m)) vars = some (.unionWrite u' k) ∧
      SaysLess k m ∧ ∀ v ∈ vars, ∀ j, lastWrittenFid facts v = some j → SaysLess k j := by
  induction vars generalizing u m with
  | nil => exact ⟨u, m, rfl, .inr rfl, fun v hv => nomatch hv⟩
  | cons v vars ih =>
    cases hv : lastWrittenFid facts v with
    | none =>
      obtain ⟨u', k, hk, hm, hvars⟩ := ih u m
      refine ⟨u', k, by simp only [FactUnion.joinVarFacts, hv, hk], hm, ?_⟩
      intro w hw j hj
      rcases List.mem_cons.mp hw with rfl | hw
      · rw [hv] at hj
        cases hj
      · exact hvars w hw j hj
    | some fid =>
      obtain ⟨u', k, hk, hm, hvars⟩ := ih v (joinFid m fid)
      have hjoin := saysLess_joinFid m fid
      refine ⟨u', k, ?_, hm.trans hjoin.1, ?_⟩
      · simp only [FactUnion.joinVarFacts, hv, join_unionWrite, hk]
      · intro w hw j hj
        rcases List.mem_cons.mp hw with rfl | hw
        · obtain rfl : fid = j := by simpa [hv] using hj
          exact hm.trans hjoin.2
        · exact hvars w hw j hj

/-- **The fact joined of the variables a union can be** is there and says no
more than that of any of them. -/
theorem joinVarFacts_spec {vars : List (Variable N)} {j : ℤ} (hv : v ∈ vars)
    (hj : lastWrittenFid facts v = some j) :
    ∃ u k, FactUnion.joinVarFacts facts none vars = some (.unionWrite u k) ∧ SaysLess k j := by
  induction vars with
  | nil => cases hv
  | cons w vars ih =>
    cases hw : lastWrittenFid facts w with
    | none =>
      have hvw : v ∈ vars := by
        rcases List.mem_cons.mp hv with rfl | h
        · rw [hw] at hj
          cases hj
        · exact h
      obtain ⟨u, k, hk, hkj⟩ := ih hvw
      exact ⟨u, k, by simp only [FactUnion.joinVarFacts, hw, hk], hkj⟩
    | some fid =>
      obtain ⟨u, k, hk, hm, hvars⟩ := joinVarFacts_saysLess facts vars w fid
      refine ⟨u, k, by simp only [FactUnion.joinVarFacts, hw, hk], ?_⟩
      rcases List.mem_cons.mp hv with rfl | hv
      · obtain rfl : fid = j := by simpa [hw] using hj
        exact hm
      · exact hvars v hv j hj

variable {D} {mem mem' : Memory N}

/-- **What is concluded of a union's value** says no more than the field it
was written through. -/
theorem rhsToLhsTransfer_spec (lvars : List (Variable N)) {rhs : Expr N} {i : ℕ}
    (hd : Describes D facts mem) (hs : SourceNamed D facts mem rhs)
    (hi : ReadsField D mem rhs i) :
    ∃ k, FactUnion.rhsToLhsTransfer D facts lvars rhs = FactUnion.makeFacts lvars k ∧
      SaysLess k i := by
  induction hi with
  | constant t z f => exact ⟨0, rfl, .inr rfl⟩
  | var v t c hc hpath helem hu =>
    obtain ⟨j, hj, hfield⟩ := hd c.name hu
    have hmem := hs c hc
    have hvar : c.var = .named c.name [] := by rw [Cell.var, hpath]
    obtain ⟨u, k, hk, hkj⟩ := joinVarFacts_spec (hvar ▸ hmem) hj
    refine ⟨k, by simp only [FactUnion.rhsToLhsTransfer, hk], ?_⟩
    rcases hkj with rfl | rfl
    · exact .inl rfl
    · by_cases hb : k = bottom
      · exact .inl hb
      · exact .inr (hfield hb c.elem helem).symm
  | comma l r i _ ih => exact ih hs

/-! ## Fields of unions that stand alone -/

section TopUnions

variable (htop : TopUnions D) {n : N} {path : List ℕ}
include htop

omit [DecidableEq N] in
theorem insideUnionField_iff : insideUnionField D n path = true ↔
    (D n).type.isUnion = true ∧ path ≠ [] := by
  induction path with
  | nil => simp [insideUnionField]
  | cons i path ih =>
    simp only [insideUnionField, Bool.or_eq_true, ih]
    by_cases hp : path = []
    · subst hp
      simp [typeAt]
    · simp [htop n path hp, hp]

omit [DecidableEq N] in
theorem unionFieldAt_eq (hn : (D n).type.isUnion) (hp : path ≠ []) :
    unionFieldAt D n path = [topField path] := by
  induction path with
  | nil => exact absurd rfl hp
  | cons i path ih =>
    by_cases hq : path = []
    · subst hq
      simp [unionFieldAt, typeAt, hn, topField]
    · have htopField : topField (i :: path) = topField path := by
        simp [topField, List.getLast?_cons, List.getLastD_eq_getLast?,
          List.getLast?_eq_some_getLast hq]
      simp only [unionFieldAt, htop n path hq, Bool.false_eq_true, if_false, ih hq, htopField]

omit [DecidableEq N] in
theorem containerUnion_eq : containerUnion D n path = [] := by
  induction path with
  | nil => rfl
  | cons i path ih =>
    simp only [containerUnion, htop n (i :: path) (by simp), Bool.false_eq_true, if_false, ih]

omit [DecidableEq N] in
/-- A union field is a field of a named union. -/
theorem eq_of_isUnionField (h : v.isUnionField D) :
    ∃ n i, v = .named n [i] ∧ (D n).type.isUnion := by
  cases v with
  | named n path =>
    match path with
    | [] => simp [Variable.isUnionField, Variable.fieldVarOf] at h
    | [i] => exact ⟨n, i, rfl, by simpa [Variable.isUnionField, Variable.fieldVarOf,
        Variable.type, typeAt] using h⟩
    | i :: j :: path =>
      have hno := htop n (j :: path) (by simp)
      simp [Variable.isUnionField, Variable.fieldVarOf, Variable.type, hno] at h
  | null => simp [Variable.isUnionField, Variable.fieldVarOf] at h
  | garbage => simp [Variable.isUnionField, Variable.fieldVarOf] at h
  | tbd => simp [Variable.isUnionField, Variable.fieldVarOf] at h

omit [DecidableEq N] in
/-- **A fact names the field written**, of the one variable the left side can
be, or none. -/
theorem factForLvar_spec {lvars : List (Variable N)} {c : Cell N} (hc : c.var ∈ lvars) {k : ℤ}
    (h : .unionWrite (.named n []) k ∈ lvars.filterMap (FactUnion.factForLvar D lvars)) :
    k = bottom ∨ n = c.name ∧ k = topField c.path := by
  obtain ⟨w, hw, hf⟩ := List.mem_filterMap.mp h
  unfold FactUnion.factForLvar at hf
  split_ifs at hf with hu hlen hin
  · obtain ⟨m, i, rfl, -⟩ := eq_of_isUnionField htop hu
    simp only [Variable.fieldVarOf, Option.map_some, Option.some.injEq,
      Fact.unionWrite.injEq] at hf
    exact .inl hf.2.symm
  · obtain ⟨m, i, rfl, -⟩ := eq_of_isUnionField htop hu
    -- the only variable is the one written
    have hone : c.var = .named m [i] := by
      match lvars, hc, hw with
      | [x], hc, hw => exact (List.mem_singleton.mp hc).trans (List.mem_singleton.mp hw).symm
      | x :: y :: l, _, _ => exact absurd (by simp) hlen
    simp only [Variable.fieldVarOf, Variable.fieldId, Option.map_some, Option.some.injEq,
      Fact.unionWrite.injEq, Variable.named.injEq, and_true] at hf
    simp only [Cell.var, Variable.named.injEq] at hone
    rw [hone.1, hone.2]
    exact .inr ⟨hf.1.symm, hf.2.symm⟩
  · simp only [Option.some.injEq, Fact.unionWrite.injEq] at hf
    exact .inl hf.2.symm

omit [DecidableEq N] in
/-- **A write that is noticed** has a fact of its union. -/
theorem exists_factForLvar {lvars : List (Variable N)} (h : ∃ v ∈ lvars, Marks D n v) :
    ∃ k, .unionWrite (.named n []) k ∈ lvars.filterMap (FactUnion.factForLvar D lvars) := by
  obtain ⟨v, hv, path, rfl, hin, hmark⟩ := h
  by_cases hu : (Variable.named n path).isUnionField D
  · obtain ⟨m, i, hm, -⟩ := eq_of_isUnionField htop hu
    obtain ⟨rfl, rfl⟩ := Variable.named.inj hm
    by_cases hlen : lvars.length > 1
    · refine ⟨bottom, List.mem_filterMap.mpr ⟨_, hv, ?_⟩⟩
      simp only [FactUnion.factForLvar, hu, hlen, if_true, Variable.fieldVarOf, Option.map_some]
    · refine ⟨i, List.mem_filterMap.mpr ⟨_, hv, ?_⟩⟩
      simp only [FactUnion.factForLvar, hu, hlen, if_true, if_false, Variable.fieldVarOf,
        Variable.fieldId, Option.map_some]
  · have hpad := hmark.resolve_left hu
    refine ⟨bottom, List.mem_filterMap.mpr ⟨_, hv, ?_⟩⟩
    have hand : ((Variable.named n path).isInsideUnionField D &&
        (((Variable.named n path).type D).hasPadding ||
          (Variable.named n path).isPackedAfterBitfield D)) = true := by
      simpa [hin] using hpad
    simp only [FactUnion.factForLvar, hu, hand, if_true, Variable.getContainerUnion,
      containerUnion_eq htop, Bool.false_eq_true, if_false]

/-- **What the facts describe is read as it was written.** -/
theorem readsLastWritten_of_describes (hd : Describes D facts mem) :
    ReadsLastWritten D facts mem := by
  intro n e path hn hp he hread
  obtain ⟨k, hk, hfield⟩ := hd n hn
  have hin : insideUnionField D n path = true := (insideUnionField_iff htop).mpr ⟨hn, hp⟩
  simp only [FactUnion.isNonreadableField, hin, if_true, unionFieldAt_eq htop hn hp,
    Variable.fieldVarOf, Variable.fieldId] at hread
  have hfind : findRelatedFact facts (.unionWrite (.named n []) (topField path : ℤ)) =
      findRelatedFact facts (.unionWrite (.named n []) top) := rfl
  unfold lastWrittenFid at hk
  split at hk
  · next w fid hw =>
    obtain rfl : fid = k := by simpa using hk
    rw [hfind, hw] at hread
    have himply : (Fact.unionWrite (.named n []) (topField path : ℤ)).imply (.unionWrite w fid) =
        true := by simpa using hread
    simp only [Fact.imply] at himply
    split_ifs at himply with hw hneg hb
    · unfold bottom at hneg
      omega
    · have heq : (topField path : ℤ) = fid := by simpa using himply
      have := hfield hb e he
      omega
  · cases hk

/-! ## One assignment -/

variable {lhs : Lhs N} {rhs : Expr N} {c : Cell N}

omit [DecidableEq N] htop in
/-- The union written has the field written in the element written; the other
elements are as before. -/
theorem written_of_saysLess {i : ℕ} {j k : ℤ} (h : Writes D mem mem' lhs rhs c)
    (hi : mem'.written c.name c.elem = i)
    (hfield : j ≠ bottom → ∀ e, IsElem D c.name e → (mem.written c.name e : ℤ) = j)
    (hki : SaysLess k i) (hkj : SaysLess k j ∨ (D c.name).isArray = false) (hk : k ≠ bottom) :
    ∀ e, IsElem D c.name e → (mem'.written c.name e : ℤ) = k := by
  intro e he
  have hik : k = i := hki.resolve_left hk
  by_cases hec : e = c.elem
  · rw [hec, hi, hik]
  · rcases hkj with hkj | harr
    · obtain rfl : k = j := hkj.resolve_left hk
      rw [h.others c.name e (.inr hec)]
      exact hfield hk e he
    · exact absurd ((he harr).trans (h.isElem harr).symm) hec

omit htop in
/-- A whole union takes the field of the value. -/
theorem describes_whole {lvars : List (Variable N)} {i : ℕ} {r : ℤ}
    (hd : Describes D inputs mem) (h : Writes D mem mem' lhs rhs c)
    (hc : .named c.name [] ∈ lvars) (hi : mem'.written c.name c.elem = i) (hr : SaysLess r i) :
    Describes D (updateFacts D inputs (FactUnion.makeFacts lvars r)) mem' := by
  intro n hn
  obtain ⟨j, hj, hfield⟩ := hd n hn
  have hmem : .unionWrite (.named c.name []) r ∈ FactUnion.makeFacts lvars r :=
    List.mem_map.mpr ⟨_, hc, rfl⟩
  obtain ⟨k, hk, hkj⟩ := updateFacts_left D (FactUnion.makeFacts lvars r) hj
  refine ⟨k, hk, fun hkb => ?_⟩
  by_cases hnc : n = c.name
  · subst hnc
    obtain ⟨k', hk', hkr⟩ := updateFacts_of_mem D inputs hmem
    rw [hk, Option.some.injEq] at hk'
    subst hk'
    exact written_of_saysLess h hi hfield (hkr.trans hr) (hkj.imp_right fun hs => hs.2) hkb
  · have hsays : SaysLess k j := by
      refine hkj.resolve_right fun hs => ?_
      -- then the left side could only be this union
      rw [hs.1] at hmem
      have heq := List.mem_singleton.mp hmem
      simp only [Fact.unionWrite.injEq, Variable.named.injEq, and_true] at heq
      exact hnc heq.1.symm
    obtain rfl : k = j := hsays.resolve_left hkb
    intro e he
    rw [h.others n e (.inl hnc)]
    exact hfield hkb e he

/-- Part of a union is its field, as far as that is noticed; what is in no
union changes none. -/
theorem describes_part {lvars : List (Variable N)} (hd : Describes D inputs mem)
    (h : Writes D mem mem' lhs rhs c) (hu : lhs.type.isUnion = false) (hc : c.var ∈ lvars)
    (hnested : (D c.name).type.isUnion → c.path ≠ [] → (∃ v ∈ lvars, Marks D c.name v) ∨
      ∀ k, lastWrittenFid inputs (.named c.name []) = some k → SaysLess k (topField c.path)) :
    Describes D (updateFacts D inputs (lvars.filterMap (FactUnion.factForLvar D lvars))) mem' := by
  intro n hn
  obtain ⟨j, hj, hfield⟩ := hd n hn
  have hone : ∀ {k : ℤ}, lvars.filterMap (FactUnion.factForLvar D lvars) =
      [.unionWrite (.named n []) k] → k = bottom ∨ n = c.name ∧ k = topField c.path := by
    intro k hk
    refine factForLvar_spec htop hc ?_
    rw [hk]
    exact List.mem_cons_self
  obtain ⟨k, hk, hkj⟩ := updateFacts_left D
    (lvars.filterMap (FactUnion.factForLvar D lvars)) hj
  refine ⟨k, hk, fun hkb => ?_⟩
  by_cases hnc : n = c.name
  · subst hnc
    have hpath : c.path ≠ [] := by
      intro hp
      have htype := h.type
      rw [hp] at htype
      have htype' : (D c.name).type = lhs.type := htype
      rw [htype', hu] at hn
      cases hn
    have hwritten := h.written hn
    rw [if_neg hpath] at hwritten
    have hki : SaysLess k (topField c.path) := by
      rcases hnested hn hpath with hmark | hbefore
      · obtain ⟨m, hm⟩ := exists_factForLvar htop hmark
        obtain ⟨k', hk', hkm⟩ := updateFacts_of_mem D inputs hm
        rw [hk, Option.some.injEq] at hk'
        subst hk'
        exact hkm.trans ((factForLvar_spec htop hc hm).imp_right And.right)
      · rcases hkj with hkj | hs
        · exact hkj.trans (hbefore j hj)
        · exact (hone hs.1).imp_right And.right
    exact written_of_saysLess h hwritten hfield hki (hkj.imp_right fun hs => hs.2) hkb
  · have hsays : SaysLess k j := by
      refine hkj.resolve_right fun hs => ?_
      exact (hone hs.1).elim hkb fun heq => hnc heq.1
    obtain rfl : k = j := hsays.resolve_left hkb
    intro e he
    rw [h.others n e (.inl hnc)]
    exact hfield hkb e he

/-- **Step lemma.** An assignment that meets the condition leaves facts that
describe the memory. -/
theorem describes_update (hd : Describes D facts mem) (h : Writes D mem mem' lhs rhs c)
    (hok : Noticed D facts mem lhs rhs c) :
    Describes D (updateFactForAssign D lhs rhs facts) mem' := by
  have hd' : Describes D (pointToUpdated D lhs rhs facts) mem := by
    intro n hn
    rw [lastWrittenFid_pointToUpdated]
    exact hd n hn
  unfold updateFactForAssign FactUnion.abstractFactForAssign
  dsimp only
  cases hu : lhs.type.isUnion with
  | true =>
    have hpath : c.path = [] := by
      by_contra hp
      have hno := htop c.name c.path hp
      rw [h.type, hu] at hno
      cases hno
    have htype := h.type
    rw [hpath] at htype
    have hcu : (D c.name).type.isUnion = true := (congrArg Ty.isUnion htype).trans hu
    have hread := h.written hcu
    rw [if_pos hpath] at hread
    obtain ⟨r, hr, hri⟩ := rhsToLhsTransfer_spec
      (lhs.getLvars D (pointToUpdated D lhs rhs facts)) hd' (hok.source hu) hread
    have hmem := hok.target
    rw [Cell.var, hpath] at hmem
    rw [if_pos rfl, hr]
    exact describes_whole hd' h hmem rfl hri
  | false =>
    rw [if_neg (by decide)]
    refine describes_part htop hd' h hu hok.target fun hcu hpath => ?_
    refine (hok.nested hcu hpath).imp_right fun hbefore k hk => hbefore k ?_
    rwa [lastWrittenFid_pointToUpdated] at hk

omit htop in
/-- An update without a fact of a union leaves what is known of it. -/
theorem lastWrittenFid_updateFacts_of_notMem (h : ∀ k, .unionWrite v k ∉ facts) :
    lastWrittenFid (updateFacts D inputs facts) v = lastWrittenFid inputs v := by
  have hmerge : ∀ facts : FactVec (Variable N), (∀ k, .unionWrite v k ∉ facts) →
      ∀ inputs, lastWrittenFid (mergeFacts inputs facts).1 v = lastWrittenFid inputs v := by
    intro facts
    induction facts with
    | nil => exact fun _ _ => rfl
    | cons f facts ih =>
      intro h inputs
      refine (ih (fun k hk => h k (List.mem_cons_of_mem _ hk)) _).trans ?_
      cases f with
      | pointTo w s => exact lastWrittenFid_mergeFact_pointTo s
      | unionWrite w k =>
        have hne : ¬ v = w := fun heq => h k (heq ▸ List.mem_cons_self)
        rw [lastWrittenFid_mergeFact, if_neg hne]
  match facts, h with
  | [], h => exact hmerge [] h inputs
  | [f], h =>
    simp only [updateFacts]
    split_ifs
    · exact hmerge [f] h inputs
    · cases f with
      | pointTo w s => exact lastWrittenFid_renewFact_pointTo s
      | unionWrite w k =>
        have hne : ¬ v = w := fun heq => h k (heq ▸ List.mem_cons_self)
        rw [lastWrittenFid_renewFact, if_neg hne]
  | f :: g :: facts, h => exact hmerge (f :: g :: facts) h inputs

omit [DecidableEq N] in
/-- A fact of a union is drawn of a variable in it. -/
theorem marks_of_factForLvar {lvars : List (Variable N)} {k : ℤ} {w : Variable N}
    (h : FactUnion.factForLvar D lvars w = some (.unionWrite (.named n []) k)) : Marks D n w := by
  unfold FactUnion.factForLvar at h
  split_ifs at h with hu hlen hin
  · obtain ⟨m, i, rfl, hm⟩ := eq_of_isUnionField htop hu
    simp only [Variable.fieldVarOf, Option.map_some, Option.some.injEq, Fact.unionWrite.injEq,
      Variable.named.injEq, and_true] at h
    refine ⟨[i], by rw [h.1], ?_, .inl hu⟩
    exact (insideUnionField_iff htop).mpr ⟨hm, by simp⟩
  · obtain ⟨m, i, rfl, hm⟩ := eq_of_isUnionField htop hu
    simp only [Variable.fieldVarOf, Option.map_some, Option.some.injEq, Fact.unionWrite.injEq,
      Variable.named.injEq, and_true] at h
    refine ⟨[i], by rw [h.1], ?_, .inl hu⟩
    exact (insideUnionField_iff htop).mpr ⟨hm, by simp⟩
  · simp only [Bool.and_eq_true, Bool.or_eq_true] at hin
    cases w with
    | named m path =>
      simp only [Variable.getContainerUnion, containerUnion_eq htop, Option.some.injEq,
        Fact.unionWrite.injEq, Variable.named.injEq, and_true] at h
      exact ⟨path, by rw [h.1], hin.1, .inr hin.2⟩
    | null => simp [Variable.isInsideUnionField] at hin
    | garbage => simp [Variable.isInsideUnionField] at hin
    | tbd => simp [Variable.isInsideUnionField] at hin

/-- **The condition is exact**: a write inside a union that goes unnoticed
leaves another field readable. -/
theorem nested_of_readsLastWritten (hd : Describes D facts mem)
    (h : Writes D mem mem' lhs rhs c) (hcu : (D c.name).type.isUnion) (hpath : c.path ≠ [])
    (hread : ReadsLastWritten D (updateFactForAssign D lhs rhs facts) mem') :
    (∃ v ∈ lhs.getLvars D (pointToUpdated D lhs rhs facts), Marks D c.name v) ∨
      ∀ k, lastWrittenFid facts (.named c.name []) = some k → k = bottom ∨ k = topField c.path := by
  by_contra hno
  push Not at hno
  obtain ⟨hmark, k, hk, hkb, hkf⟩ := hno
  obtain ⟨j, hj, hfield⟩ := hd c.name hcu
  obtain rfl : j = k := by simpa [hj] using hk
  have hwritten := hfield hkb c.elem h.isElem
  have hu : lhs.type.isUnion = false := by
    rw [← h.type]
    exact htop c.name c.path hpath
  -- the fact of the union is the one from before: no assignment of it was marked
  have hafter : lastWrittenFid (updateFactForAssign D lhs rhs facts) (.named c.name []) =
      some j := by
    unfold updateFactForAssign FactUnion.abstractFactForAssign
    dsimp only
    rw [if_neg (by rw [hu]; decide), lastWrittenFid_updateFacts_of_notMem,
      lastWrittenFid_pointToUpdated, hj]
    intro k hk
    obtain ⟨w, hw, hf⟩ := List.mem_filterMap.mp hk
    exact hmark w hw (marks_of_factForLvar htop hf)
  -- so the field that was written before is still let through
  have hlet : FactUnion.isNonreadableField D (updateFactForAssign D lhs rhs facts)
      (.named c.name [mem.written c.name c.elem]) = false := by
    have hin : insideUnionField D c.name [mem.written c.name c.elem] = true :=
      (insideUnionField_iff htop).mpr ⟨hcu, by simp⟩
    simp only [FactUnion.isNonreadableField, hin, if_true, unionFieldAt_eq htop hcu
      (List.cons_ne_nil (mem.written c.name c.elem) []), Variable.fieldVarOf, Variable.fieldId]
    have hfind : ∀ i : ℤ, findRelatedFact (updateFactForAssign D lhs rhs facts)
        (.unionWrite (.named c.name []) i) = findRelatedFact (updateFactForAssign D lhs rhs facts)
        (.unionWrite (.named c.name []) top) := fun _ => rfl
    unfold lastWrittenFid at hafter
    split at hafter
    · next w fid hw =>
      obtain rfl : fid = j := by simpa using hafter
      have hrel := (isRelated_unionWrite top fid).mp (List.find?_some hw)
      rw [hfind, hw, ← hrel]
      have htopf : topField [mem.written c.name c.elem] = mem.written c.name c.elem := rfl
      simp only [Fact.imply, if_true, htopf, hwritten, if_neg hkb, decide_true, Bool.not_true]
    · cases hafter
  have hlast := hread c.name c.elem _ hcu (by simp) h.isElem hlet
  have hnow := h.written hcu
  rw [if_neg hpath] at hnow
  have htopf : topField [mem.written c.name c.elem] = mem.written c.name c.elem := rfl
  rw [hnow, htopf] at hlast
  exact hkf (by rw [hlast, hwritten])

/-! ## Whole runs -/

omit htop in
theorem finish_append (b : Block N) (todo : List (Item N)) (facts : FactVec (Variable N)) :
    finish D (b.items ++ todo) facts = finish D todo (b.visitFacts D facts) := by
  match b with
  | .nil => rfl
  | .cons s rest => exact finish_append rest todo _

omit htop in
/-- **The facts of a run are those computed**: visiting what is left ends
where visiting the program does. -/
theorem finish_eq {ok : FactVec (Variable N) → Memory N → Lhs N → Expr N → Cell N → Prop}
    {program : Block N} {s : State N} (hs : (runs D ok program facts mem).Reachable s) :
    finish D s.todo s.facts = program.visitFacts D facts := by
  refine hs.invariant (I := fun s => finish D s.todo s.facts = program.visitFacts D facts) ?_ ?_
  · rintro s rfl
    have happ := finish_append (D := D) program [] facts
    rw [List.append_nil] at happ
    exact happ
  · intro s s' _ ih hstep
    cases hstep with
    | assign lhs rhs c todo facts mem mem' hok h => exact ih
    | ifTrue t f todo facts mem => exact (finish_append t _ facts).trans ih
    | ifFalse t f todo facts mem => exact (finish_append f _ facts).trans ih
    | endTrue g todo facts mem => exact ih
    | endFalse g todo facts mem => exact ih

/-- A step whose assignment meets the condition keeps facts that describe the
memory: at the end of a branch they only lose what the other does not know. -/
theorem describes_step {s s' : State N} (hd : Describes D s.facts s.mem)
    (hstep : Step D (Noticed D) s s') : Describes D s'.facts s'.mem := by
  have hweak : ∀ {facts facts' : FactVec (Variable N)} {mem : Memory N}, Describes D facts mem →
      (∀ v j, lastWrittenFid facts v = some j →
        ∃ k, lastWrittenFid facts' v = some k ∧ SaysLess k j) → Describes D facts' mem := by
    intro facts facts' mem hd hle n hn
    obtain ⟨j, hj, hfield⟩ := hd n hn
    obtain ⟨k, hk, hkj⟩ := hle _ j hj
    refine ⟨k, hk, fun hkb => ?_⟩
    obtain rfl := hkj.resolve_left hkb
    exact hfield hkb
  cases hstep with
  | assign lhs rhs c todo facts mem mem' hok h => exact describes_update htop hd h hok
  | ifTrue t f todo facts mem => exact hd
  | ifFalse t f todo facts mem => exact hd
  | endTrue g todo facts mem => exact hweak hd fun v j hj => mergeFacts_left _ hj
  | endFalse g todo facts mem => exact hweak hd fun v j hj => mergeFacts_right hj

/-- **Unions are read only through the field last written** in every run whose
assignments meet the condition, under the facts that are computed; and where
the points-to facts are right of every assignment, the condition is exact. -/
theorem readsLastWritten_iff (program : Block N) (hd : Describes D facts mem) :
    (∀ s, (runs D (Noticed D) program facts mem).Reachable s →
      ReadsLastWritten D s.facts s.mem ∧
        finish D s.todo s.facts = program.visitFacts D facts) ∧
    ((∀ s, (runs D (Named D) program facts mem).Reachable s →
        ReadsLastWritten D s.facts s.mem) ↔
      ∀ s s', (runs D (Named D) program facts mem).Reachable s →
        Step D (Named D) s s' → Step D (Noticed D) s s') := by
  refine ⟨fun s hs => ⟨?_, finish_eq hs⟩, fun hall => ?_, fun hall s hs => ?_⟩
  · refine readsLastWritten_of_describes htop ?_
    refine hs.invariant (I := fun s => Describes D s.facts s.mem) ?_ ?_
    · rintro s rfl
      exact hd
    · exact fun s s' _ ih hstep => describes_step htop ih hstep
  · -- one step, whose state before is described and after is read right
    have hone : ∀ s s', Describes D s.facts s.mem → ReadsLastWritten D s'.facts s'.mem →
        Step D (Named D) s s' → Step D (Noticed D) s s' := by
      intro s s' hds hread hstep
      cases hstep with
      | assign lhs rhs c todo facts mem mem' hok h =>
        refine .assign lhs rhs c todo facts mem mem' ⟨hok, fun hcu hpath => ?_⟩ h
        exact nested_of_readsLastWritten htop hds h hcu hpath hread
      | ifTrue t f todo facts mem => exact .ifTrue t f todo facts mem
      | ifFalse t f todo facts mem => exact .ifFalse t f todo facts mem
      | endTrue g todo facts mem => exact .endTrue g todo facts mem
      | endFalse g todo facts mem => exact .endFalse g todo facts mem
    intro s s' hs hstep
    refine hone s s' ?_ (hall s' (hs.step hstep)) hstep
    refine hs.invariant (I := fun s => Describes D s.facts s.mem) ?_ ?_
    · rintro s rfl
      exact hd
    · intro a b ha ih hab
      exact describes_step htop ih (hone a b ih (hall b (ha.step hab)) hab)
  · refine readsLastWritten_of_describes htop ?_
    refine hs.invariant (I := fun s => Describes D s.facts s.mem) ?_ ?_
    · rintro s rfl
      exact hd
    · exact fun a b ha ih hab => describes_step htop ih (hall a b ha hab)

end TopUnions

end Update

end Fid

/-! ## A union of a struct and an integer -/

/-- `union { struct { int f0; } f0; int f1; }`. -/
def structOrInt : Unit → Decl := fun _ =>
  { type := .union (.cons (.struct false (.cons (.simple 4) none .nil)) none
      (.cons (.simple 4) none .nil))
    isArray := false }

theorem structOrInt_topUnions : TopUnions structOrInt := by
  have htype : ∀ path, path ≠ [] →
      typeAt structOrInt () path = .struct false (.cons (.simple 4) none .nil) ∨
      ∃ n, typeAt structOrInt () path = .simple n := by
    intro path
    induction path with
    | nil => exact fun h => absurd rfl h
    | cons i path ih =>
      intro _
      by_cases hp : path = []
      · subst hp
        match i with
        | 0 => exact .inl rfl
        | 1 => exact .inr ⟨4, rfl⟩
        | i + 2 => exact .inr ⟨0, rfl⟩
      · rcases ih hp with h | ⟨n, h⟩
        · refine .inr ?_
          unfold typeAt
          rw [h]
          match i with
          | 0 => exact ⟨4, rfl⟩
          | i + 1 => exact ⟨0, rfl⟩
        · refine .inr ⟨0, ?_⟩
          unfold typeAt
          rw [h]
          rfl
  intro n path hp
  rcases htype path hp with h | ⟨k, h⟩
  · exact congrArg Ty.isUnion h
  · exact congrArg Ty.isUnion h

/-- `path = c;`, for an integer field. -/
def writeField (path : List ℕ) : Stm Unit :=
  .assign ⟨.named () path, .simple 4⟩ (.constant (.simple 4) false false)

/-- The union, written through a field. -/
def lastThrough (field : ℕ) : Memory Unit :=
  { written := fun _ e => if e = 0 then field else 0
    pointer := fun _ => none }

theorem describes_initialised :
    Describes structOrInt [.unionWrite (.named () []) 0] (lastThrough 0) := by
  intro n _
  refine ⟨0, rfl, fun _ e _ => ?_⟩
  simp [lastThrough]

theorem writes_writeField (before : ℕ) (path : List ℕ) (hp : path ≠ [])
    (htype : typeAt structOrInt () path = .simple 4) :
    Writes structOrInt (lastThrough before) (lastThrough (topField path))
      ⟨.named () path, .simple 4⟩ (.constant (.simple 4) false false) ⟨(), 0, path⟩ where
  target := by
    have hlevel : (Variable.named () path).type structOrInt = .simple 4 := htype
    rw [hlevel]
    exact ⟨rfl, fun _ => rfl⟩
  isElem := fun _ => rfl
  type := htype
  written := by
    intro _
    rw [if_neg hp]
    rfl
  others := by
    rintro n e (h | h)
    · exact absurd rfl h
    · simp [lastThrough, h]
  pointer := fun h => nomatch h
  pointers := fun _ _ => rfl

theorem named_writeField {facts : FactVec (Variable Unit)} {mem : Memory Unit} {path : List ℕ}
    (htype : typeAt structOrInt () path = .simple 4) :
    Named structOrInt facts mem ⟨.named () path, .simple 4⟩ (.constant (.simple 4) false false)
      ⟨(), 0, path⟩ where
  target := by
    have hlevel : (Variable.named () path).type structOrInt = .simple 4 := htype
    unfold Lhs.getLvars
    rw [hlevel]
    exact List.mem_cons_self
  source := fun h => nomatch h

/-- After `u.f1 = c;` the second field can be read, and was written last. -/
theorem readsLastWritten_iff_field :
    FactUnion.isNonreadableField structOrInt [.unionWrite (.named () []) 1] (.named () [1]) =
      false ∧
      ReadsLastWritten structOrInt [.unionWrite (.named () []) 1] (lastThrough 1) := by
  refine ⟨by decide, ((readsLastWritten_iff structOrInt_topUnions (.cons (writeField [1]) .nil)
    describes_initialised).1 ⟨[], [.unionWrite (.named () []) 1], lastThrough 1⟩ ?_).1⟩
  refine .step (.init rfl) (.assign _ _ ⟨(), 0, [1]⟩ _ _ _ _ ⟨named_writeField rfl, ?_⟩
    (writes_writeField 0 [1] (by decide) rfl))
  exact fun _ _ => .inl ⟨.named () [1], by decide, [1], rfl, by decide, .inl (by decide)⟩

/-- After `u.f1 = c; u.f0.f0 = c;` the second field can be read still. -/
theorem not_readsLastWritten_nested : TopUnions structOrInt ∧
    Describes structOrInt [.unionWrite (.named () []) 0] (lastThrough 0) ∧
    ¬ ∀ s, (runs structOrInt (Named structOrInt)
        (.cons (writeField [1]) (.cons (writeField [0, 0]) .nil))
        [.unionWrite (.named () []) 0] (lastThrough 0)).Reachable s →
      ReadsLastWritten structOrInt s.facts s.mem := by
  refine ⟨structOrInt_topUnions, describes_initialised, fun h => ?_⟩
  have hfirst : (runs structOrInt (Named structOrInt)
      (.cons (writeField [1]) (.cons (writeField [0, 0]) .nil))
      [.unionWrite (.named () []) 0] (lastThrough 0)).Reachable
      ⟨[.stm (writeField [0, 0])], [.unionWrite (.named () []) 1], lastThrough 1⟩ :=
    .step (.init rfl) (.assign _ _ ⟨(), 0, [1]⟩ _ _ _ _ (named_writeField rfl)
      (writes_writeField 0 [1] (by decide) rfl))
  have hread := h ⟨[], [.unionWrite (.named () []) 1], lastThrough 0⟩
    (hfirst.step (.assign _ _ ⟨(), 0, [0, 0]⟩ _ _ _ _ (named_writeField rfl)
      (writes_writeField 1 [0, 0] (by decide) rfl)))
    () 0 [1] rfl (by decide) (fun _ => rfl) (by decide)
  cases hread

end Facts

end CLSmith
