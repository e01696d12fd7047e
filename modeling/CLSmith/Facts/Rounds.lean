import CLSmith.Facts.Loop
import CLSmith.Facts.Merge
/-!
# How many rounds a loop body needs

The environments of the analysis of a loop body as functions, what a visit of a
statement makes of one, that the shortcuts return the same, and so what each
round of `find_fixed_point` starts from: the pointees that are so many flows
away.
-/

namespace CLSmith

namespace Facts

open Common

variable {N : Type} [DecidableEq N] {D : N → Decl}

/-! ## One fact renewed -/

section Renew

variable {facts : FactVec (Variable N)} {f : Fact (Variable N)}

theorem env_cons (f : Fact (Variable N)) (facts : FactVec (Variable N)) :
    env (f :: facts) = Function.update (env facts) f.key (f.val : WithBot _) := by
  funext k
  show Keyed.den Fact.key Fact.val (f :: facts) k = _
  rw [Keyed.den_cons]
  by_cases hk : f.key = k
  · subst hk
    rw [if_pos rfl, Function.update_self]
  · rw [if_neg hk, Function.update_of_ne (fun h => hk h.symm)]
    rfl

theorem keys_renewFact {k : FactCategory × Variable N}
    (h : k ∈ (renewFact facts f).map Fact.key) : k = f.key ∨ k ∈ facts.map Fact.key := by
  induction facts with
  | nil => exact .inl (List.mem_singleton.mp h)
  | cons g facts ih =>
    unfold renewFact at h
    rw [List.map_cons, List.mem_cons]
    split at h
    · next hrel =>
      have hkey := Fact.isRelated_iff.mp hrel
      split at h
      · exact .inr (List.mem_cons.mp h)
      · rcases List.mem_cons.mp h with rfl | h
        · exact .inl rfl
        · exact .inr (.inr h)
    · rcases List.mem_cons.mp h with rfl | h
      · exact .inr (.inl rfl)
      · exact (ih h).imp_right .inr

/-- **Renewing a fact** keeps an environment well formed. -/
theorem renewFact_wf (hfacts : Wf facts) (hf : f.Ok) : Wf (renewFact facts f) := by
  induction facts with
  | nil => exact ⟨List.nodup_singleton _, fun b hb => List.mem_singleton.mp hb ▸ hf⟩
  | cons g facts ih =>
    have hg := hfacts.ok g List.mem_cons_self
    have hkg := (List.nodup_cons.mp hfacts.keys).1
    unfold renewFact
    split
    · next hrel =>
      have hkey := Fact.isRelated_iff.mp hrel
      split
      · exact hfacts
      · exact Keyed.Wf.cons hf (hkey ▸ hkg) hfacts.tail
    · next hrel =>
      refine Keyed.Wf.cons hg (fun hmem => ?_) (ih hfacts.tail)
      rcases keys_renewFact hmem with h | h
      · exact hrel (Fact.isRelated_iff.mpr h.symm)
      · exact hkg h

/-- **A renewed fact** is what the environment says of its key. -/
theorem env_renewFact (hfacts : Wf facts) (hf : f.Ok) :
    env (renewFact facts f) = Function.update (env facts) f.key (f.val : WithBot _) := by
  induction facts with
  | nil => exact env_cons f []
  | cons g facts ih =>
    have hg := hfacts.ok g List.mem_cons_self
    unfold renewFact
    split
    · next hrel =>
      have hkey := Fact.isRelated_iff.mp hrel
      split
      · next heq =>
        obtain ⟨-, hval⟩ := (Fact.equal_iff hf hg).mp heq
        rw [env_cons, hkey, hval, Function.update_idem]
      · rw [env_cons, env_cons, hkey, Function.update_idem]
    · next hrel =>
      have hkey : g.key ≠ f.key := fun h => hrel (Fact.isRelated_iff.mpr h.symm)
      rw [env_cons, env_cons, ih hfacts.tail, Function.update_comm hkey]

end Renew

namespace Loop

/-- An environment, as a function. -/
abbrev Env (N : Type) := FactCategory × Variable N → WithBot (FactVal (Variable N))

/-- What a pointer can point to. -/
def pointees (E : Env N) (p : N) : Set (Variable N) :=
  {x | x ∈ points (E (.pointTo, .named p []))}

/-- The value of a points-to fact. -/
def setVal (s : Finset (Variable N)) : WithBot (FactVal (Variable N)) :=
  (((s : WithBot (Finset (Variable N))), ⊥) : FactVal (Variable N))

/-- **There is a fact for each of the pointers.** Without one, a pointer would be
updated by adding a fact and not by renewing one. -/
def Described (ps : List N) (E : Env N) : Prop :=
  ∀ p ∈ ps, ∃ s, E (.pointTo, .named p []) = setVal s

omit [DecidableEq N] in
theorem points_setVal (s : Finset (Variable N)) : points (setVal s) = s := rfl

/-! ## What a visit makes of an environment -/

/-- What an assignment makes of an environment. -/
def Assign.after : Assign N → Env N → Env N
  | copy p q, E => Function.update E (.pointTo, .named p []) (E (.pointTo, .named q []))
  | address p x, E => Function.update E (.pointTo, .named p []) (setVal {x})
  | constant p zero, E => Function.update E (.pointTo, .named p [])
      (setVal {if zero then .null else .garbage})
  | integer _ _, E => E

mutual

/-- **What a statement makes of an environment.** The two ways through an if are
merged behind it. -/
def Stm.after : Stm N → Env N → Env N
  | .assign _ a, E => a.after E
  | .ifElse _ _ _ ifTrue ifFalse, E => ifTrue.after E ⊔ ifFalse.after E
  | .cont _, E => E

def Stms.after : Stms N → Env N → Env N
  | .nil, E => E
  | .cons s rest, E => rest.after (s.after E)

end

mutual

/-- The environments at the continues. -/
def Stm.atContinues : Stm N → Env N → List (Env N)
  | .assign _ _, _ => []
  | .ifElse _ _ _ ifTrue ifFalse, E => ifTrue.atContinues E ++ ifFalse.atContinues E
  | .cont _, E => [E]

def Stms.atContinues : Stms N → Env N → List (Env N)
  | .nil, _ => []
  | .cons s rest, E => s.atContinues E ++ rest.atContinues (s.after E)

end

/-- The environments at the back edges. -/
def Body.atBackEdges (body : Body D) (E : Env N) : List (Env N) :=
  match body.stms with
  | .nil => []
  | .cons _ _ => body.stms.atContinues E ++ [body.stms.after E]

/-- An environment and others, merged. -/
def supAll (E : Env N) (Es : List (Env N)) : Env N := Es.foldl (· ⊔ ·) E

/-- **What a round makes of its inputs**: they are merged with what arrives along
the back edges. -/
def Body.round (body : Body D) (E : Env N) : Env N := supAll E (body.atBackEdges E)

/-! ## Assignments -/

section Assignments

variable {inputs : FactVec (Variable N)}

/-- The fact of a pointer that is described. -/
theorem findRelatedFact_of_env {v : Variable N} {S : Finset (Variable N)} (hin : Wf inputs)
    (h : env inputs (.pointTo, v) = setVal S) :
    ∃ s, findRelatedFact inputs (.pointTo v []) = some (.pointTo v s) ∧ s.Nodup ∧
      s.toFinset = S := by
  rcases env_cases hin (.pointTo, v) with ⟨hbot, -⟩ | ⟨f, hf, hk, -⟩
  · rw [hbot] at h
    cases h
  have hsome : (findRelatedFact inputs (.pointTo v [])).isSome := by
    rw [findRelatedFact, List.find?_isSome]
    exact ⟨f, hf, Fact.isRelated_iff.mpr hk.symm⟩
  obtain ⟨g, hg⟩ := Option.isSome_iff_exists.mp hsome
  have hkey := Fact.isRelated_iff.mp (List.find?_some hg)
  have hmem := List.mem_of_find?_eq_some hg
  have hval : env inputs g.key = (g.val : WithBot _) := Keyed.den_of_mem hin.keys hmem
  cases g with
  | unionWrite w fid => cases hkey
  | pointTo w s =>
    obtain rfl : v = w := congrArg Prod.snd hkey
    refine ⟨s, hg, hin.ok _ hmem, ?_⟩
    have hset : setVal s.toFinset = setVal S := hval.symm.trans h
    exact congrArg points hset

/-- One dereference of a pointer that is described. -/
theorem mergePointees_of_env {n : N} {S : Finset (Variable N)} (hin : Wf inputs)
    (h : env inputs (.pointTo, .named n []) = setVal S) :
    ∃ s, mergePointeesOfPointer inputs (.named n []) 1 = s ∧ s.Nodup ∧ s.toFinset = S := by
  obtain ⟨s, hfind, hnd, rfl⟩ := findRelatedFact_of_env hin h
  refine ⟨_, rfl, ?_⟩
  have heq : mergePointeesOfPointer inputs (.named n []) 1 = addVariables [] s := by
    unfold mergePointeesOfPointer mergePointeesOfPointer mergePointeesOfPointers
    rw [if_neg (by simp [Variable.isSpecialPtr]), hfind]
    rfl
  rw [heq]
  refine ⟨nodup_addVariables List.nodup_nil, ?_⟩
  ext x
  simp [mem_addVariables]

/-- `FactUnion` has nothing to say of a variable that is no union. -/
theorem unionFacts_of_named {n : N} {t : Ty} (ht : t.isUnion = false) (rhs : Expr N)
    (hl : (⟨.named n [], t⟩ : Lhs N).getLvars D inputs = [.named n []]) :
    FactUnion.abstractFactForAssign D inputs ⟨.named n [], t⟩ rhs = [] := by
  unfold FactUnion.abstractFactForAssign
  simp [ht, hl, FactUnion.factForLvar, Variable.isUnionField, Variable.fieldVarOf,
    Variable.isInsideUnionField, insideUnionField]

theorem getLvars_of_named {n : N} :
    (⟨.named n [], (D n).type⟩ : Lhs N).getLvars D inputs = [.named n []] := by
  unfold Lhs.getLvars
  rw [show (Variable.named n [] : Variable N).type D = (D n).type from rfl, Nat.sub_self]
  rfl

/-- **An assignment to a pointer** renews its fact. -/
theorem updateFactForAssign_pointer {p : N} {rhs : Expr N} {s : List (Variable N)}
    (hp : (D p).type.isPointer = true) (harr : (D p).isArray = false)
    (hrhs : FactPointTo.rhsToLhsTransfer D inputs [.named p []] rhs = [.pointTo (.named p []) s]) :
    updateFactForAssign D ⟨.named p [], (D p).type⟩ rhs inputs =
      renewFact inputs (.pointTo (.named p []) s) := by
  have hunion : (D p).type.isUnion = false := by
    cases hty : (D p).type with
    | pointer t => rfl
    | _ => rw [hty] at hp; cases hp
  unfold updateFactForAssign pointToUpdated FactPointTo.abstractFactForAssign
  simp only [hp, if_true]
  rw [unionFacts_of_named hunion rhs getLvars_of_named, getLvars_of_named, hrhs]
  have harr' : (Fact.pointTo (.named p []) s : Fact (Variable N)).getVar.isArray D = false := harr
  unfold updateFacts
  simp only [harr', Bool.false_eq_true, if_false]
  rfl

/-- **An assignment does to an environment what is said.** -/
theorem visit_assign {a : Assign N} (ha : a.Ok D) (hin : Wf inputs)
    (hd : Described a.pointers (env inputs)) :
    Wf (updateFactForAssign D (a.lhs D) (a.rhs D) inputs) ∧
      env (updateFactForAssign D (a.lhs D) (a.rhs D) inputs) = a.after (env inputs) := by
  cases a with
  | copy p q =>
    obtain ⟨hp, harr, hq⟩ := ha
    obtain ⟨S, hS⟩ := hd q (by simp [Assign.pointers])
    obtain ⟨s, hs, hnd, hset⟩ := mergePointees_of_env hin hS
    have hrhs : FactPointTo.rhsToLhsTransfer D inputs [.named p []]
        (.var (.named q []) (D q).type) = [.pointTo (.named p []) s] := by
      have hty : (Variable.named q [] : Variable N).type D = (D q).type := rfl
      have hagg : (D q).type.isAggregate = false := by
        cases h : (D q).type with
        | pointer t => rfl
        | _ => rw [h] at hq; cases hq
      unfold FactPointTo.rhsToLhsTransfer
      simp [Expr.type, hq, hty, hagg, hs, FactPointTo.makeFacts]
    have heq := updateFactForAssign_pointer hp harr hrhs
    have hok : (Fact.pointTo (.named p []) s : Fact (Variable N)).Ok := hnd
    show Wf (updateFactForAssign D _ _ inputs) ∧ env (updateFactForAssign D _ _ inputs) = _
    unfold Assign.lhs Assign.rhs
    simp only
    rw [heq]
    refine ⟨renewFact_wf hin hok, (env_renewFact hin hok).trans ?_⟩
    show _ = Function.update (env inputs) (.pointTo, .named p [])
      (env inputs (.pointTo, .named q []))
    rw [hS, ← hset]
    rfl
  | address p x =>
    obtain ⟨hp, harr⟩ := ha
    have hrhs : FactPointTo.rhsToLhsTransfer D inputs [.named p []]
        (.var x (.pointer (x.type D))) = [.pointTo (.named p []) [x]] := by
      unfold FactPointTo.rhsToLhsTransfer
      simp [Expr.type, Ty.isPointer, Ty.indirectLevel, FactPointTo.makeFacts]
    have heq := updateFactForAssign_pointer hp harr hrhs
    have hok : (Fact.pointTo (.named p []) [x] : Fact (Variable N)).Ok := List.nodup_singleton x
    unfold Assign.lhs Assign.rhs
    simp only
    rw [heq]
    exact ⟨renewFact_wf hin hok, (env_renewFact hin hok).trans rfl⟩
  | constant p zero =>
    obtain ⟨hp, harr⟩ := ha
    have hrhs : FactPointTo.rhsToLhsTransfer D inputs [.named p []]
        (.constant (D p).type zero false) =
          [.pointTo (.named p []) [if zero then .null else .garbage]] := by
      unfold FactPointTo.rhsToLhsTransfer
      simp [Expr.type, hp, FactPointTo.makeFacts]
    have heq := updateFactForAssign_pointer hp harr hrhs
    have hok : (Fact.pointTo (.named p []) [if zero then .null else .garbage] :
        Fact (Variable N)).Ok := List.nodup_singleton _
    unfold Assign.lhs Assign.rhs
    simp only
    rw [heq]
    exact ⟨renewFact_wf hin hok, (env_renewFact hin hok).trans rfl⟩
  | integer i rhs =>
    obtain ⟨size, hty⟩ := ha
    -- no pointer and no union is assigned to, so that no fact is made
    have hnone : updateFactForAssign D ⟨.named i [], (D i).type⟩ rhs inputs = inputs := by
      have hpoint : FactPointTo.abstractFactForAssign D inputs ⟨.named i [], (D i).type⟩ rhs =
          [] := by
        unfold FactPointTo.abstractFactForAssign
        rw [getLvars_of_named]
        have hfields : (Variable.named i [] : Variable N).findPointerFields D = [] := by
          show (D i).type.fields.findPointerFields i [] 0 = []
          rw [hty]
          rfl
        have hinside : (Variable.named i [] : Variable N).isInsideUnionField D = false := rfl
        have hnil : FactPointTo.rhsToLhsTransfer D inputs [] rhs = [] := by
          cases rhs <;> rfl
        simp [hty, Ty.isPointer, hinside, hfields, hnil]
      have hunion : (D i).type.isUnion = false := by rw [hty]; rfl
      unfold updateFactForAssign pointToUpdated
      rw [hpoint]
      have hsame : updateFacts D inputs [] = inputs := rfl
      simp only [hsame]
      rw [unionFacts_of_named hunion rhs getLvars_of_named, hsame]
    unfold Assign.lhs Assign.rhs
    simp only
    rw [hnone]
    exact ⟨hin, rfl⟩

end Assignments

/-! ## Environments and flows -/

section Envs

variable {ps : List N} {E F : Env N} {Es : List (Env N)}

omit [DecidableEq N] in
theorem Described.mono {ps' : List N} (h : Described ps E) (hsub : ps' ⊆ ps) : Described ps' E :=
  fun p hp => h p (hsub hp)

omit [DecidableEq N] in
theorem setVal_sup [DecidableEq N] (s t : Finset (Variable N)) :
    setVal s ⊔ setVal t = setVal (s ∪ t) := by
  unfold setVal
  rw [← WithBot.coe_sup, Prod.mk_sup_mk, ← WithBot.coe_sup, sup_bot_eq]
  rfl

theorem Described.sup (hE : Described ps E) (hF : Described ps F) : Described ps (E ⊔ F) := by
  intro p hp
  obtain ⟨s, hs⟩ := hE p hp
  obtain ⟨t, ht⟩ := hF p hp
  exact ⟨s ∪ t, by rw [Pi.sup_apply, hs, ht, setVal_sup]⟩

theorem Described.supAll (hE : Described ps E) (hEs : ∀ F ∈ Es, Described ps F) :
    Described ps (supAll E Es) := by
  induction Es generalizing E with
  | nil => exact hE
  | cons F Es ih =>
    obtain ⟨hF, hEs⟩ := List.forall_mem_cons.mp hEs
    exact ih (hE.sup hF) hEs

/-- An update at a pointer leaves the facts in place. -/
theorem Described.update {p : N} {s : Finset (Variable N)} (hE : Described ps E) :
    Described ps (Function.update E (.pointTo, .named p []) (setVal s)) := by
  intro q hq
  by_cases h : ((.pointTo, .named q []) : FactCategory × Variable N) = (.pointTo, .named p [])
  · rw [h, Function.update_self]
    exact ⟨s, rfl⟩
  · rw [Function.update_of_ne h]
    exact hE q hq

theorem Described.assign {a : Assign N} (hE : Described ps E) (ha : a.pointers ⊆ ps) :
    Described ps (a.after E) := by
  cases a with
  | copy p q =>
    obtain ⟨s, hs⟩ := hE q (ha (by simp [Assign.pointers]))
    show Described ps (Function.update E _ (E (.pointTo, .named q [])))
    rw [hs]
    exact hE.update
  | address p x => exact hE.update
  | constant p zero => exact hE.update
  | integer i rhs => exact hE

mutual

/-- **The pointers stay described.** -/
theorem Described.stm (s : Stm N) {E : Env N} (hE : Described ps E) (hs : s.pointers ⊆ ps) :
    Described ps (s.after E) := by
  match s with
  | .assign _ a => exact hE.assign hs
  | .ifElse _ _ _ ifTrue ifFalse =>
    obtain ⟨ht, hf⟩ := List.append_subset.mp hs
    exact (Described.stms ifTrue hE ht).sup (Described.stms ifFalse hE hf)
  | .cont _ => exact hE

theorem Described.stms (ss : Stms N) {E : Env N} (hE : Described ps E) (hs : ss.pointers ⊆ ps) :
    Described ps (ss.after E) := by
  match ss with
  | .nil => exact hE
  | .cons s rest =>
    obtain ⟨hs, hrest⟩ := List.append_subset.mp hs
    exact Described.stms rest (Described.stm s hE hs) hrest

end

mutual

theorem Described.stmAt (s : Stm N) {E : Env N} (hE : Described ps E) (hs : s.pointers ⊆ ps) :
    ∀ F ∈ s.atContinues E, Described ps F := by
  match s with
  | .assign _ a => exact fun F hF => absurd hF List.not_mem_nil
  | .ifElse _ _ _ ifTrue ifFalse =>
    obtain ⟨ht, hf⟩ := List.append_subset.mp hs
    intro F hF
    rcases List.mem_append.mp hF with hF | hF
    · exact Described.stmsAt ifTrue hE ht F hF
    · exact Described.stmsAt ifFalse hE hf F hF
  | .cont _ =>
    intro F hF
    rw [List.mem_singleton.mp hF]
    exact hE

theorem Described.stmsAt (ss : Stms N) {E : Env N} (hE : Described ps E) (hs : ss.pointers ⊆ ps) :
    ∀ F ∈ ss.atContinues E, Described ps F := by
  match ss with
  | .nil => exact fun F hF => absurd hF List.not_mem_nil
  | .cons s rest =>
    obtain ⟨hs, hrest⟩ := List.append_subset.mp hs
    intro F hF
    rcases List.mem_append.mp hF with hF | hF
    · exact Described.stmAt s hE hs F hF
    · exact Described.stmsAt rest (Described.stm s hE hs) hrest F hF

end

/-- Two environments that differ at described pointers only. -/
def AgreeOff (ps : List N) (E F : Env N) : Prop :=
  ∀ k, (∀ p ∈ ps, k ≠ (.pointTo, .named p [])) → E k = F k

omit [DecidableEq N] in
theorem AgreeOff.trans {G : Env N} (h : AgreeOff ps E F) (h' : AgreeOff ps F G) :
    AgreeOff ps E G := fun k hk => (h k hk).trans (h' k hk)

theorem AgreeOff.assign {a : Assign N} (ha : a.pointers ⊆ ps) : AgreeOff ps E (a.after E) := by
  intro k hk
  have hupdate : ∀ p v, p ∈ ps → E k = Function.update E (.pointTo, .named p []) v k :=
    fun p v hp => (Function.update_of_ne (hk p hp) v E).symm
  cases a with
  | copy p q => exact hupdate p _ (ha (by simp [Assign.pointers]))
  | address p x => exact hupdate p _ (ha (by simp [Assign.pointers]))
  | constant p zero => exact hupdate p _ (ha (by simp [Assign.pointers]))
  | integer i rhs => rfl

mutual

theorem AgreeOff.stm (s : Stm N) {E : Env N} (hs : s.pointers ⊆ ps) :
    AgreeOff ps E (s.after E) := by
  match s with
  | .assign _ a => exact AgreeOff.assign hs
  | .ifElse _ _ _ ifTrue ifFalse =>
    obtain ⟨ht, hf⟩ := List.append_subset.mp hs
    intro k hk
    have htrue : E k = ifTrue.after E k := AgreeOff.stms ifTrue ht k hk
    have hfalse : E k = ifFalse.after E k := AgreeOff.stms ifFalse hf k hk
    show E k = ifTrue.after E k ⊔ ifFalse.after E k
    rw [← htrue, ← hfalse, sup_idem]
  | .cont _ => exact fun k _ => rfl

theorem AgreeOff.stms (ss : Stms N) {E : Env N} (hs : ss.pointers ⊆ ps) :
    AgreeOff ps E (ss.after E) := by
  match ss with
  | .nil => exact fun k _ => rfl
  | .cons s rest =>
    obtain ⟨hs, hrest⟩ := List.append_subset.mp hs
    exact (AgreeOff.stm s hs).trans (AgreeOff.stms rest hrest)

end

mutual

theorem AgreeOff.stmAt (s : Stm N) {E : Env N} (hs : s.pointers ⊆ ps) :
    ∀ F ∈ s.atContinues E, AgreeOff ps E F := by
  match s with
  | .assign _ a => exact fun F hF => absurd hF List.not_mem_nil
  | .ifElse _ _ _ ifTrue ifFalse =>
    obtain ⟨ht, hf⟩ := List.append_subset.mp hs
    intro F hF
    rcases List.mem_append.mp hF with hF | hF
    · exact AgreeOff.stmsAt ifTrue ht F hF
    · exact AgreeOff.stmsAt ifFalse hf F hF
  | .cont _ =>
    intro F hF
    rw [List.mem_singleton.mp hF]
    exact fun k _ => rfl

theorem AgreeOff.stmsAt (ss : Stms N) {E : Env N} (hs : ss.pointers ⊆ ps) :
    ∀ F ∈ ss.atContinues E, AgreeOff ps E F := by
  match ss with
  | .nil => exact fun F hF => absurd hF List.not_mem_nil
  | .cons s rest =>
    obtain ⟨hs, hrest⟩ := List.append_subset.mp hs
    intro F hF
    rcases List.mem_append.mp hF with hF | hF
    · exact AgreeOff.stmAt s hs F hF
    · exact (AgreeOff.stm s hs).trans (AgreeOff.stmsAt rest hrest F hF)

end

theorem AgreeOff.supAll (h : ∀ F ∈ Es, AgreeOff ps E F) : AgreeOff ps E (supAll E Es) := by
  have key : ∀ k, (∀ F ∈ Es, E k = F k) → ∀ G : Env N, G k = E k →
      Loop.supAll G Es k = E k := by
    intro k
    clear h
    induction Es with
    | nil => exact fun _ G hG => hG
    | cons F Es ih =>
      intro hEs G hG
      obtain ⟨hF, hEs⟩ := List.forall_mem_cons.mp hEs
      exact ih hEs (G ⊔ F) (by rw [Pi.sup_apply, hG, ← hF, sup_idem])
  exact fun k hk => (key k (fun F hF => h F hF k hk) E rfl).symm

omit [DecidableEq N] in
/-- **Environments with the same pointees** are the same. -/
theorem eq_of_pointees (hE : Described ps E) (hF : Described ps F) (hoff : AgreeOff ps E F)
    (h : ∀ p ∈ ps, pointees E p = pointees F p) : E = F := by
  funext k
  by_cases hk : ∃ p ∈ ps, k = (.pointTo, .named p [])
  · obtain ⟨p, hp, rfl⟩ := hk
    obtain ⟨s, hs⟩ := hE p hp
    obtain ⟨t, ht⟩ := hF p hp
    have heq := h p hp
    unfold pointees at heq
    rw [hs, ht, points_setVal, points_setVal] at heq
    have hst : s = t := Finset.ext fun x => by
      exact Set.ext_iff.mp heq x
    rw [hs, ht, hst]
  · push Not at hk
    exact hoff k hk

/-! ### Pointees -/

theorem pointees_sup (p : N) : pointees (E ⊔ F) p = pointees E p ∪ pointees F p := by
  ext x
  unfold pointees
  rw [Pi.sup_apply, points_sup]
  exact Finset.mem_union

theorem mem_pointees_supAll {p : N} {x : Variable N} :
    x ∈ pointees (supAll E Es) p ↔ x ∈ pointees E p ∨ ∃ F ∈ Es, x ∈ pointees F p := by
  induction Es generalizing E with
  | nil => simp [supAll]
  | cons F Es ih =>
    show x ∈ pointees (supAll (E ⊔ F) Es) p ↔ _
    rw [ih, pointees_sup, Set.mem_union, List.exists_mem_cons_iff]
    exact or_assoc

theorem pointees_update {p : N} {v : WithBot (FactVal (Variable N))} :
    pointees (Function.update E (.pointTo, .named p []) v) =
      Function.update (pointees E) p {x | x ∈ points v} := by
  funext q
  by_cases h : q = p
  · subst h
    rw [Function.update_self]
    unfold pointees
    rw [Function.update_self]
  · rw [Function.update_of_ne h]
    unfold pointees
    rw [Function.update_of_ne (by simpa using h)]

/-- **An assignment lets flow** what it says. -/
theorem pointees_assign (a : Assign N) : pointees (a.after E) = a.flow.apply (pointees E) := by
  cases a with
  | copy p q =>
    show pointees (Function.update E _ (E (.pointTo, .named q []))) = _
    rw [pointees_update, Assign.flow, Flow.apply_assign]
    rfl
  | address p x =>
    show pointees (Function.update E _ (setVal {x})) = _
    rw [pointees_update, points_setVal, Assign.flow, Flow.apply_assign]
    simp [Source.held]
  | constant p zero =>
    show pointees (Function.update E _ (setVal {if zero then .null else .garbage})) = _
    rw [pointees_update, points_setVal, Assign.flow, Flow.apply_assign]
    simp [Source.held]
  | integer i rhs => exact Flow.apply_skip.symm

mutual

/-- **A statement lets flow** what its flow says. -/
theorem pointees_stm (s : Stm N) (E : Env N) :
    pointees (s.after E) = s.flow.apply (pointees E) := by
  match s with
  | .assign _ a => exact pointees_assign a
  | .ifElse _ _ _ ifTrue ifFalse =>
    funext p
    show pointees (ifTrue.after E ⊔ ifFalse.after E) p =
      (ifTrue.flow.alt ifFalse.flow).apply (pointees E) p
    rw [pointees_sup, Flow.apply_alt, pointees_stms ifTrue, pointees_stms ifFalse]
  | .cont _ => exact Flow.apply_skip.symm

theorem pointees_stms (ss : Stms N) (E : Env N) :
    pointees (ss.after E) = ss.flow.apply (pointees E) := by
  match ss with
  | .nil => exact Flow.apply_skip.symm
  | .cons s rest =>
    show pointees (rest.after (s.after E)) = (s.flow.comp rest.flow).apply (pointees E)
    rw [Flow.apply_comp, pointees_stms rest, pointees_stm s]

end

mutual

theorem pointees_stmAt (s : Stm N) (E : Env N) (p : N) (x : Variable N) :
    (∃ F ∈ s.atContinues E, x ∈ pointees F p) ↔ x ∈ s.flowBack.apply (pointees E) p := by
  match s with
  | .assign _ a =>
    show (∃ F ∈ [], x ∈ pointees F p) ↔ x ∈ Flow.none.apply (pointees E) p
    rw [Flow.apply_none]
    simp
  | .ifElse _ _ _ ifTrue ifFalse =>
    show (∃ F ∈ ifTrue.atContinues E ++ ifFalse.atContinues E, x ∈ pointees F p) ↔
      x ∈ (ifTrue.flowBack.alt ifFalse.flowBack).apply (pointees E) p
    rw [Flow.apply_alt, Set.mem_union, ← pointees_stmsAt ifTrue, ← pointees_stmsAt ifFalse]
    simp only [List.mem_append, or_and_right, exists_or]
  | .cont _ =>
    show (∃ F ∈ [E], x ∈ pointees F p) ↔ x ∈ Flow.skip.apply (pointees E) p
    rw [Flow.apply_skip]
    simp

theorem pointees_stmsAt (ss : Stms N) (E : Env N) (p : N) (x : Variable N) :
    (∃ F ∈ ss.atContinues E, x ∈ pointees F p) ↔ x ∈ ss.flowBack.apply (pointees E) p := by
  match ss with
  | .nil =>
    show (∃ F ∈ [], x ∈ pointees F p) ↔ x ∈ Flow.none.apply (pointees E) p
    rw [Flow.apply_none]
    simp
  | .cons s rest =>
    show (∃ F ∈ s.atContinues E ++ rest.atContinues (s.after E), x ∈ pointees F p) ↔
      x ∈ (s.flowBack.alt (s.flow.comp rest.flowBack)).apply (pointees E) p
    rw [Flow.apply_alt, Set.mem_union, Flow.apply_comp, ← pointees_stm s, ← pointees_stmAt s,
      ← pointees_stmsAt rest]
    simp only [List.mem_append, or_and_right, exists_or]

end

/-! ### Rounds -/

variable (body : Body D)

/-- A body is empty, or its back edges are from the continues and the tail. -/
theorem Body.back_cases (E : Env N) :
    (body.backEdges = [] ∧ body.atBackEdges E = [] ∧ body.flow = Flow.none) ∨
      body.backEdges = body.stms.continues ++ [body.id] ∧
      body.atBackEdges E = body.stms.atContinues E ++ [body.stms.after E] ∧
      body.flow = body.stms.flowBack.alt body.stms.flow := by
  obtain ⟨id, stms, ok, nodup⟩ := body
  cases stms with
  | nil => exact .inl ⟨rfl, rfl, rfl⟩
  | cons s rest => exact .inr ⟨rfl, rfl, rfl⟩

theorem described_atBackEdges (hE : Described body.stms.pointers E) :
    ∀ F ∈ body.atBackEdges E, Described body.stms.pointers F := by
  have hself := List.Subset.refl body.stms.pointers
  rcases body.back_cases E with ⟨-, hat, -⟩ | ⟨-, hat, -⟩ <;> rw [hat]
  · exact fun F hF => absurd hF List.not_mem_nil
  · intro F hF
    rcases List.mem_append.mp hF with hF | hF
    · exact Described.stmsAt body.stms hE hself F hF
    · rw [List.mem_singleton.mp hF]
      exact Described.stms body.stms hE hself

theorem described_round (hE : Described body.stms.pointers E) :
    Described body.stms.pointers (body.round E) :=
  hE.supAll (described_atBackEdges body hE)

theorem agreeOff_round : AgreeOff body.stms.pointers E (body.round E) := by
  refine AgreeOff.supAll ?_
  have hself := List.Subset.refl body.stms.pointers
  rcases body.back_cases E with ⟨-, hat, -⟩ | ⟨-, hat, -⟩ <;> rw [hat]
  · exact fun F hF => absurd hF List.not_mem_nil
  · intro F hF
    rcases List.mem_append.mp hF with hF | hF
    · exact AgreeOff.stmsAt body.stms hself F hF
    · rw [List.mem_singleton.mp hF]
      exact AgreeOff.stms body.stms hself

theorem pointees_atBackEdges (p : N) (x : Variable N) :
    (∃ F ∈ body.atBackEdges E, x ∈ pointees F p) ↔ x ∈ body.flow.apply (pointees E) p := by
  rcases body.back_cases E with ⟨-, hat, hflow⟩ | ⟨-, hat, hflow⟩ <;> rw [hat, hflow]
  · rw [Flow.apply_none]
    simp
  · rw [Flow.apply_alt, Set.mem_union, ← pointees_stmsAt, ← pointees_stms]
    simp only [List.mem_append, List.mem_singleton, or_and_right, exists_or, exists_eq_left]

/-- **A round collects** what flows along the back edges. -/
theorem pointees_round : pointees (body.round E) = body.flow.collect (pointees E) := by
  funext p
  ext x
  unfold Body.round Flow.collect
  rw [mem_pointees_supAll, Set.mem_union, pointees_atBackEdges]

theorem described_iterate (n : ℕ) (hE : Described body.stms.pointers E) :
    Described body.stms.pointers (body.round^[n] E) := by
  induction n generalizing E with
  | zero => exact hE
  | succ n ih => exact ih (described_round body hE)

theorem pointees_iterate (n : ℕ) :
    pointees (body.round^[n] E) = fun p => {x | body.flow.Arrives (pointees E) n p x} := by
  rw [← Flow.iterate_collect]
  induction n generalizing E with
  | zero => rfl
  | succ n ih => rw [Function.iterate_succ_apply, Function.iterate_succ_apply, ih, pointees_round]

/-- **A round changes nothing** where nothing arrives that did not before. -/
theorem round_iterate_eq_iff (n : ℕ) (hE : Described body.stms.pointers E) :
    body.round^[n + 1] E = body.round^[n] E ↔
      ∀ p x, body.flow.Arrives (pointees E) (n + 1) p x → body.flow.Arrives (pointees E) n p x := by
  have hn := pointees_iterate body (E := E) n
  have hn' := pointees_iterate body (E := E) (n + 1)
  constructor
  · intro heq p x hx
    rw [heq, hn] at hn'
    exact (Set.ext_iff.mp (congrFun hn' p) x).mpr hx
  · intro h
    rw [Function.iterate_succ_apply']
    refine (eq_of_pointees (described_iterate body n hE)
      (described_round body (described_iterate body n hE)) (agreeOff_round body) fun p _ => ?_).symm
    rw [← Function.iterate_succ_apply' body.round, hn, hn']
    ext x
    exact ⟨Flow.Arrives.succ, h p x⟩

end Envs

end Loop

end Facts

end CLSmith
