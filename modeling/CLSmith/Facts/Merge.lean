import CLSmith.Facts.Fact
/-!
# Merging facts is a least upper bound

The order of points-to sets and of last written fields, the environment a
vector of facts stands for, and `merge_facts` and `same_facts` as the supremum
and the equality of environments.
-/

namespace CLSmith

namespace Facts

open Common

variable {V : Type} [DecidableEq V]

/-! ## Sets of variables -/

section Sets

variable {s t : List V} {v : V}

theorem subVariableSets_iff (ht : t.Nodup) :
    subVariableSets t s = true ↔ t.toFinset ⊆ s.toFinset := by
  unfold subVariableSets
  constructor
  · intro h x hx
    split at h
    · rw [List.mem_toFinset] at hx ⊢
      simpa using List.all_eq_true.mp h x hx
    · cases h
  · intro h
    have hsub : t ⊆ s := fun x hx => List.mem_toFinset.mp (h (List.mem_toFinset.mpr hx))
    rw [if_pos (List.subperm_of_subset ht hsub).length_le, List.all_eq_true]
    intro x hx
    simpa using hsub hx

theorem equalVariableSets_iff (hs : s.Nodup) (ht : t.Nodup) :
    equalVariableSets s t = true ↔ s.toFinset = t.toFinset := by
  unfold equalVariableSets
  constructor
  · intro h
    split at h
    · next hlen =>
      have hsub : s ⊆ t := fun x hx => by simpa using List.all_eq_true.mp h x hx
      exact List.toFinset_eq_of_perm _ _
        ((List.subperm_of_subset hs hsub).perm_of_length_le hlen.ge)
    · cases h
  · intro h
    have hperm : s.Perm t := (List.toFinset_eq_iff_perm_dedup.mp h).trans
      (by rw [ht.dedup]) |> fun h' => by rwa [hs.dedup] at h'
    rw [if_pos hperm.length_eq, List.all_eq_true]
    intro x hx
    simpa using hperm.mem_iff.mp hx

theorem mem_addVariables : v ∈ addVariables s t ↔ v ∈ s ∨ v ∈ t := by
  induction t generalizing s with
  | nil => simp [addVariables]
  | cons x t ih =>
    unfold addVariables
    split
    · next hx =>
      rw [ih, List.mem_cons]
      constructor
      · tauto
      · rintro (h | rfl | h)
        · exact .inl h
        · exact .inl hx
        · exact .inr h
    · rw [ih, List.mem_append, List.mem_singleton, List.mem_cons]
      tauto

theorem nodup_addVariables (hs : s.Nodup) : (addVariables s t).Nodup := by
  induction t generalizing s with
  | nil => exact hs
  | cons x t ih =>
    unfold addVariables
    split
    · exact ih hs
    · next hx => exact ih (List.nodup_append.mpr ⟨hs, List.nodup_singleton x, by grind⟩)

end Sets

/-! ## The order of facts -/

/-- A points-to set, or the field of a union. -/
abbrev FactVal (V : Type) := WithBot (Finset V) × WithBot (Flat ℤ)

namespace Fact

/-- No variable is twice in a points-to set. -/
def Ok : Fact V → Prop
  | pointTo _ s => s.Nodup
  | unionWrite _ _ => True

/-- A field, or that the fields differ. -/
def written (fid : ℤ) : Flat ℤ := if fid = bottom then .mixed else .known fid

/-- What a fact says of its variable; the parts are for the categories. -/
def val : Fact V → FactVal V
  | pointTo _ s => (s.toFinset, ⊥)
  | unionWrite _ fid => (⊥, written fid)

theorem written_inj {m n : ℤ} : written m = written n ↔ m = n := by
  unfold written
  grind

theorem written_sup (m n : ℤ) : written m ⊔ written n = written (if m = n then m else bottom) := by
  rw [Flat.sup_eq]
  unfold written
  grind

theorem isRelated_iff {f g : Fact V} : f.isRelated g = true ↔ f.key = g.key := by
  unfold isRelated key
  simp

variable {f n : Fact V}

/-- **The functions of facts** are those of the order. -/
theorem lawful : Keyed.Lawful (key (V := V)) val Ok imply join where
  key_join {f n} h := by
    cases n <;> cases f <;> simp only [join] <;> split_ifs <;> rfl
  ok_join {f n} h hf hn := by
    cases n with
    | pointTo v s =>
      cases f with
      | pointTo w t =>
        simp only [join]
        split_ifs
        · exact nodup_addVariables hn
        · exact hn
      | unionWrite w i => exact hn
    | unionWrite v i =>
      cases f with
      | pointTo w t => trivial
      | unionWrite w j =>
        simp only [join]
        split_ifs <;> trivial
  val_join {f n} h hf hn := by
    cases n with
    | pointTo v s =>
      cases f with
      | pointTo w t =>
        obtain rfl : w = v := congrArg Prod.snd h
        simp only [join, if_true, val, Prod.mk_sup_mk, bot_sup_eq, ← WithBot.coe_sup]
        congr 2
        ext x
        simp [mem_addVariables]
      | unionWrite w i => cases h
    | unionWrite v i =>
      cases f with
      | pointTo w t => cases h
      | unionWrite w j =>
        obtain rfl : w = v := congrArg Prod.snd h
        -- two fields that differ are joined to the bottom, which is known of neither
        have hjoin : (unionWrite w i).join (unionWrite w j) =
            unionWrite w (if i = j then i else bottom) := by
          simp only [join, imply, if_true]
          grind
        rw [hjoin]
        simp only [val, Prod.mk_sup_mk, bot_sup_eq, ← WithBot.coe_sup, written_sup]
  imply_iff {f n} h hf hn := by
    cases f with
    | pointTo v s =>
      cases n with
      | pointTo w t =>
        obtain rfl : v = w := congrArg Prod.snd h
        simp only [imply, decide_true, Bool.true_and, subVariableSets_iff hn, val, Prod.mk_le_mk,
          le_refl, and_true, WithBot.coe_le_coe]
      | unionWrite w j => cases h
    | unionWrite v i =>
      cases n with
      | pointTo w t => cases h
      | unionWrite w j =>
        obtain rfl : v = w := congrArg Prod.snd h
        simp only [imply, if_true, val, Prod.mk_le_mk, le_refl, true_and, WithBot.coe_le_coe,
          Flat.le_iff, written_inj]
        unfold written
        grind

theorem equal_iff {f g : Fact V} (hf : f.Ok) (hg : g.Ok) :
    f.equal g = true ↔ f.key = g.key ∧ f.val = g.val := by
  cases f with
  | pointTo v s =>
    cases g with
    | pointTo w t =>
      simp [equal, equalVariableSets_iff hf hg, key, eCat, getVar, val]
    | unionWrite w j => simp [equal, key, eCat]
  | unionWrite v i =>
    cases g with
    | pointTo w t => simp [equal, key, eCat]
    | unionWrite w j => simp [equal, key, eCat, getVar, val, written_inj]

end Fact

/-! ## Environments -/

section Env

variable (a b c : FactVec V)

/-- **One fact for each category and variable**, and duplicate-free sets. All
functions on vectors of facts keep it. -/
abbrev Wf (a : FactVec V) : Prop := Keyed.Wf Fact.key Fact.Ok a

/-- **What a vector of facts says**, as a function of category and variable. There is
no value where there is no fact. -/
def env (a : FactVec V) : FactCategory × V → WithBot (FactVal V) :=
  Keyed.den Fact.key Fact.val a

/-- **The same facts**, but for the order of the facts and of the elements of
their sets. -/
def Same (a b : FactVec V) : Prop :=
  (a.map fun f => (f.key, f.val)).Perm (b.map fun f => (f.key, f.val))

theorem mergeFact_eq (f : Fact V) :
    mergeFact a f = Keyed.mergeOne Fact.key Fact.imply Fact.join a f := by
  induction a with
  | nil => rfl
  | cons g a ih =>
    unfold mergeFact Keyed.mergeOne
    simp only [Fact.isRelated_iff, ih]

theorem mergeFacts_eq : mergeFacts a b = Keyed.merge Fact.key Fact.imply Fact.join a b := by
  induction b generalizing a with
  | nil => rfl
  | cons f b ih =>
    unfold mergeFacts Keyed.merge
    simp only [mergeFact_eq, ih]

theorem sameFacts_eq : sameFacts a b = Keyed.same Fact.equal a b := by
  unfold sameFacts Keyed.same findFact
  by_cases h : a.length = b.length <;> simp [h]

variable {a b c} (ha : Wf a) (hb : Wf b) (hc : Wf c)
include ha hb

theorem mergeFacts_wf : Wf (mergeFacts a b).1 := by
  rw [mergeFacts_eq]
  exact Keyed.merge_wf Fact.lawful ha hb

theorem env_mergeFacts : env (mergeFacts a b).1 = env a ⊔ env b := by
  rw [mergeFacts_eq]
  exact Keyed.den_merge Fact.lawful ha hb

theorem env_eq_iff : env a = env b ↔ Same a b := Keyed.den_eq_iff ha.keys hb.keys

theorem sameFacts_iff : sameFacts a b = true ↔ env a = env b := by
  rw [sameFacts_eq]
  exact Keyed.same_iff ha.keys hb.keys fun f hf g hg => Fact.equal_iff (ha.ok f hf) (hb.ok g hg)

theorem mergeFacts_changed : (mergeFacts a b).2 = true ↔ ¬ Same (mergeFacts a b).1 a := by
  rw [← env_eq_iff (mergeFacts_wf ha hb) ha, mergeFacts_eq]
  exact Keyed.merge_changed Fact.lawful ha hb

omit hb in
/-- What an environment says of a fact's key, either way. -/
theorem env_cases (k : FactCategory × V) :
    (env a k = ⊥ ∧ ∀ f ∈ a, f.key ≠ k) ∨ ∃ f ∈ a, f.key = k ∧ env a k = (f.val : WithBot _) := by
  by_cases h : ∃ f ∈ a, f.key = k
  · obtain ⟨f, hf, rfl⟩ := h
    exact .inr ⟨f, hf, rfl, Keyed.den_of_mem ha.keys hf⟩
  · push Not at h
    refine .inl ⟨Keyed.den_eq_bot.mpr fun hmem => ?_, h⟩
    obtain ⟨f, hf, hk⟩ := List.mem_map.mp hmem
    exact h f hf hk

/-- The points-to set in what an environment says. -/
def points (g : WithBot (FactVal V)) : Finset V := (g.unbotD (⊥, ⊥)).1.unbotD ∅

omit ha hb in
theorem points_sup (g h : WithBot (FactVal V)) : points (g ⊔ h) = points g ∪ points h := by
  have hset : ∀ S T : WithBot (Finset V), (S ⊔ T).unbotD ∅ = S.unbotD ∅ ∪ T.unbotD ∅ := by
    intro S T
    cases S with
    | bot => simp
    | coe S =>
      cases T with
      | bot => simp
      | coe T => rw [← WithBot.coe_sup]; rfl
  cases g with
  | bot => simp [points]
  | coe g =>
    cases h with
    | bot => simp [points]
    | coe h =>
      rw [← WithBot.coe_sup]
      exact hset g.1 h.1

omit hb in
theorem mem_points_iff (v x : V) :
    (∃ s, .pointTo v s ∈ a ∧ x ∈ s) ↔ x ∈ points (env a (.pointTo, v)) := by
  rcases env_cases ha (.pointTo, v) with ⟨h, hno⟩ | ⟨f, hf, hk, h⟩
  · rw [h]
    constructor
    · rintro ⟨s, hs, -⟩
      exact absurd rfl (hno _ hs)
    · exact fun hx => absurd hx (Finset.notMem_empty x)
  · cases f with
    | unionWrite w i => cases hk
    | pointTo w t =>
      obtain rfl : w = v := congrArg Prod.snd hk
      have hpoints : ∀ s, Fact.pointTo w s ∈ a → points (env a (.pointTo, w)) = s.toFinset := by
        intro s hs
        have hden : env a (.pointTo, w) = ((Fact.pointTo w s).val : WithBot _) :=
          Keyed.den_of_mem ha.keys hs
        rw [hden]
        rfl
      constructor
      · rintro ⟨s, hs, hx⟩
        rw [hpoints s hs]
        exact List.mem_toFinset.mpr hx
      · intro hx
        rw [hpoints t hf] at hx
        exact ⟨t, hf, List.mem_toFinset.mp hx⟩

/-- **A points-to set is the union of the two.** -/
theorem mem_pointTo_mergeFacts {v : V} {s : List V} (hs : .pointTo v s ∈ (mergeFacts a b).1)
    (x : V) : x ∈ s ↔ (∃ t, .pointTo v t ∈ a ∧ x ∈ t) ∨ ∃ t, .pointTo v t ∈ b ∧ x ∈ t := by
  have hm := mergeFacts_wf ha hb
  rw [mem_points_iff ha, mem_points_iff hb, ← Finset.mem_union, ← points_sup,
    ← Pi.sup_apply, ← env_mergeFacts ha hb]
  have hden : env (mergeFacts a b).1 (.pointTo, v) = ((Fact.pointTo v s).val : WithBot _) :=
    Keyed.den_of_mem hm.keys hs
  rw [hden]
  exact List.mem_toFinset.symm

omit hb in
theorem env_unionWrite {v : V} {i : ℤ} (h : .unionWrite v i ∈ a) :
    env a (.unionWrite, v) = ((⊥, (Fact.written i : WithBot _)) : FactVal V) :=
  Keyed.den_of_mem ha.keys h

/-- **A union's field is the one of both, or none known.** -/
theorem unionWrite_mergeFacts {v : V} {n : ℤ} (hn : .unionWrite v n ∈ (mergeFacts a b).1) :
    (∀ i, .unionWrite v i ∈ a ∨ .unionWrite v i ∈ b → i = n) ∨
      n = bottom ∧ ∃ i j, .unionWrite v i ∈ a ∧ .unionWrite v j ∈ b ∧ i ≠ j := by
  have hm := mergeFacts_wf ha hb
  have hden := env_unionWrite hm hn
  rw [env_mergeFacts ha hb, Pi.sup_apply] at hden
  have hinj : ∀ {m m' : ℤ},
      (((⊥, (Fact.written m : WithBot _)) : FactVal V) : WithBot (FactVal V)) =
      (((⊥, (Fact.written m' : WithBot _)) : FactVal V) : WithBot (FactVal V)) → m = m' := by
    intro m m' h
    rw [WithBot.coe_inj, Prod.mk.injEq, WithBot.coe_inj] at h
    exact Fact.written_inj.mp h.2
  have hone : ∀ {c : FactVec V} {k : V} {i j : ℤ}, Wf c → .unionWrite k i ∈ c →
      .unionWrite k j ∈ c → i = j := by
    intro c k i j hc hi hj
    exact hinj ((env_unionWrite hc hi).symm.trans (env_unionWrite hc hj))
  rcases env_cases ha (.unionWrite, v) with ⟨hbot, hno⟩ | ⟨f, hf, hk, -⟩
  · refine .inl fun i hi => ?_
    have hib := hi.resolve_left fun h => hno _ h rfl
    rw [hbot, bot_sup_eq, env_unionWrite hb hib] at hden
    exact hinj hden
  · rcases env_cases hb (.unionWrite, v) with ⟨hbot, hno⟩ | ⟨g, hg, hk', -⟩
    · refine .inl fun i hi => ?_
      have hia := hi.resolve_right fun h => hno _ h rfl
      rw [hbot, sup_bot_eq, env_unionWrite ha hia] at hden
      exact hinj hden
    · cases f with
      | pointTo w s => cases hk
      | unionWrite w i =>
        cases g with
        | pointTo w' s => cases hk'
        | unionWrite w' j =>
          obtain rfl : w = v := congrArg Prod.snd hk
          obtain rfl : w' = w := congrArg Prod.snd hk'
          rw [env_unionWrite ha hf, env_unionWrite hb hg, ← WithBot.coe_sup, Prod.mk_sup_mk,
            bot_sup_eq, ← WithBot.coe_sup, Fact.written_sup] at hden
          have hn' := hinj hden
          -- both know a field: it is kept where it is the same one
          by_cases hij : i = j
          · subst hij
            rw [if_pos rfl] at hn'
            refine .inl fun k hk => ?_
            rcases hk with hk | hk
            · exact (hone ha hk hf).trans hn'
            · exact (hone hb hk hg).trans hn'
          · rw [if_neg hij] at hn'
            exact .inr ⟨hn'.symm, i, j, hf, hg, hij⟩

include hc

/-- **Merging is a least upper bound**: it keeps one fact for each key, over
the keys of both, with the union of the points-to sets and the field both
know; it says whether anything changed; it is idempotent, commutative and
associative but for order, and `same_facts` is equality but for order. -/
theorem mergeFacts_lub :
    Wf (mergeFacts a b).1 ∧
    (∀ k, k ∈ (mergeFacts a b).1.map Fact.key ↔ k ∈ a.map Fact.key ∨ k ∈ b.map Fact.key) ∧
    (∀ v s, .pointTo v s ∈ (mergeFacts a b).1 →
      ∀ x, x ∈ s ↔ (∃ t, .pointTo v t ∈ a ∧ x ∈ t) ∨ ∃ t, .pointTo v t ∈ b ∧ x ∈ t) ∧
    (∀ v n, .unionWrite v n ∈ (mergeFacts a b).1 →
      (∀ i, .unionWrite v i ∈ a ∨ .unionWrite v i ∈ b → i = n) ∨
        n = bottom ∧ ∃ i j, .unionWrite v i ∈ a ∧ .unionWrite v j ∈ b ∧ i ≠ j) ∧
    IsLUB {env a, env b} (env (mergeFacts a b).1) ∧
    ((mergeFacts a b).2 = true ↔ ¬ Same (mergeFacts a b).1 a) ∧
    Same (mergeFacts a a).1 a ∧
    Same (mergeFacts a b).1 (mergeFacts b a).1 ∧
    Same (mergeFacts (mergeFacts a b).1 c).1 (mergeFacts a (mergeFacts b c).1).1 ∧
    (sameFacts a b = true ↔ Same a b) ∧ (Same a b ↔ env a = env b) := by
  have hab := mergeFacts_wf ha hb
  have hbc := mergeFacts_wf hb hc
  refine ⟨hab, ?_, fun v s hs => mem_pointTo_mergeFacts ha hb hs,
    fun v n hn => unionWrite_mergeFacts ha hb hn, ?_, mergeFacts_changed ha hb, ?_, ?_, ?_, ?_,
    (env_eq_iff ha hb).symm⟩
  · intro k
    rw [mergeFacts_eq]
    exact Keyed.mem_keys_merge Fact.lawful k
  · rw [env_mergeFacts ha hb]
    exact isLUB_pair
  · rw [← env_eq_iff (mergeFacts_wf ha ha) ha, env_mergeFacts ha ha, sup_idem]
  · rw [← env_eq_iff hab (mergeFacts_wf hb ha), env_mergeFacts ha hb, env_mergeFacts hb ha,
      sup_comm]
  · rw [← env_eq_iff (mergeFacts_wf hab hc) (mergeFacts_wf ha hbc), env_mergeFacts hab hc,
      env_mergeFacts ha hb, env_mergeFacts ha hbc, env_mergeFacts hb hc, sup_assoc]
  · rw [sameFacts_iff ha hb, env_eq_iff ha hb]

end Env

/-- Facts of three environments: points-to sets that overlap, and a union
with two fields. -/
theorem mergeFacts_lub_overlap :
    Same (mergeFacts (mergeFacts [.pointTo 0 [1, 2], .unionWrite 5 0] [.unionWrite 5 1]).1
        [.pointTo 0 [2, 3]]).1
      (mergeFacts [.pointTo 0 [1, 2], .unionWrite 5 0]
        (mergeFacts [.unionWrite 5 1] [.pointTo 0 [2, 3]]).1).1 :=
  (mergeFacts_lub (V := ℕ) (a := [.pointTo 0 [1, 2], .unionWrite 5 0]) (b := [.unionWrite 5 1])
    (c := [.pointTo 0 [2, 3]])
    ⟨by decide, by simp [Fact.Ok]⟩ ⟨by decide, by simp [Fact.Ok]⟩
    ⟨by decide, by simp [Fact.Ok]⟩).2.2.2.2.2.2.2.2.1

end Facts

end CLSmith
