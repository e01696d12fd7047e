import CLSmith.ArrayVariable
import Mathlib.Data.List.Induction
/-!
# The fields of an array element

A store the generator can make is well formed variable by variable: fields
are younger than what they are fields of, point back to it, and have its text
and their number in their name. So the fields of an element and those of its
array have the same paths, and the way `get_collective` takes through a name
is the path the name was made along.
-/

namespace CLSmith

namespace Variables

open Common CString StdString StringUtils

namespace Store

variable {prefixed : List Char → List Char} {σ σ' τ : Store} {v w u p c n : ℕ}

/-- **A variable is well formed.** Its fields come after it, know it and are named
after it in order; an element of an array knows an array of the same type, and is no
field itself. -/
structure Ok (σ : Store) (v : ℕ) : Prop where
  field_lt : ∀ w ∈ (σ.var v).fieldVars, v < w ∧ w < σ.next
  field_of : ∀ w ∈ (σ.var v).fieldVars, (σ.var w).fieldVarOf = some v ∧ (σ.var w).isArray = false
  nodup : (σ.var v).fieldVars.Nodup
  types : (σ.var v).fieldVars.map (fun w => (σ.var w).type) = (σ.var v).type.named
  name : (σ.var v).isArray = false → ∀ (j w : ℕ), (σ.var v).fieldVars[j]? = some w →
    (σ.var w).name = fieldName (σ.var v).name j
  element_name : ∀ c, (σ.var v).collective = some c → ∃ text : List Char, ∀ (j w : ℕ),
    (σ.var v).fieldVars[j]? = some w → (σ.var w).name = fieldName (text ++ [']']) j
  array : (σ.var v).isArray = true → (σ.var v).fieldVarOf = none
  parent_lt : ∀ p, (σ.var v).fieldVarOf = some p → p < v
  collective : ∀ c, (σ.var v).collective = some c → (σ.var v).isArray = true ∧ c < v ∧
    (σ.var c).isArray = true ∧ (σ.var c).collective = none ∧ (σ.var c).type = (σ.var v).type

/-- **A store is well formed**: every variable is, and is in the list of what it
is a field of. -/
structure Wf (σ : Store) : Prop where
  ok : ∀ v < σ.next, σ.Ok v
  listed : ∀ v < σ.next, ∀ p, (σ.var v).fieldVarOf = some p → v ∈ (σ.var p).fieldVars

/-! ## What creation leaves as it is -/

/-- `σ'` has the variables of `σ`, up to fields added to them. -/
structure Extends (σ σ' : Store) : Prop where
  next_le : σ.next ≤ σ'.next
  rest : ∀ u < σ.next, σ'.var u = { σ.var u with fieldVars := (σ'.var u).fieldVars }
  grow : ∀ u < σ.next, (σ.var u).fieldVars ⊆ (σ'.var u).fieldVars

theorem Extends.refl (σ : Store) : Extends σ σ :=
  ⟨Nat.le_refl _, fun _ _ => rfl, fun _ _ => List.Subset.refl _⟩

theorem Extends.trans (h : Extends σ σ') (h' : Extends σ' τ) : Extends σ τ where
  next_le := Nat.le_trans h.next_le h'.next_le
  rest u hu := by
    have hu' : u < σ'.next := Nat.lt_of_lt_of_le hu h.next_le
    have h₁ := h'.rest u hu'
    rw [h.rest u hu] at h₁
    exact h₁
  grow u hu := List.Subset.trans (h.grow u hu) (h'.grow u (Nat.lt_of_lt_of_le hu h.next_le))

theorem extends_alloc (x : Variable) : Extends σ (σ.alloc x) := by
  have hvar : ∀ u < σ.next, (σ.alloc x).var u = σ.var u :=
    fun u hu => Function.update_of_ne (Nat.ne_of_lt hu) _ _
  refine ⟨Nat.le_succ _, fun u hu => ?_, fun u hu => ?_⟩
  · rw [hvar u hu]
  · rw [hvar u hu]
    exact List.Subset.refl _

theorem extends_pushField (v w : ℕ) : Extends σ (σ.pushField v w) := by
  refine ⟨Nat.le_refl _, fun u _ => ?_, fun u _ => ?_⟩
  · by_cases h : u = v
    · subst h
      simp [pushField]
    · simp [pushField, h]
  · by_cases h : u = v
    · subst h
      simp [pushField]
    · simp [pushField, h]

/-- **A well formed variable stays so** where its own fields stay the same. -/
theorem Ok.extends (h : σ.Ok v) (hv : v < σ.next) (he : Extends σ σ')
    (hf : (σ'.var v).fieldVars = (σ.var v).fieldVars) : σ'.Ok v := by
  have hvar : σ'.var v = σ.var v := by rw [he.rest v hv, hf]
  -- of a field, only the list of its own fields may have grown
  have hfield : ∀ w ∈ (σ.var v).fieldVars, σ'.var w =
      { σ.var w with fieldVars := (σ'.var w).fieldVars } := fun w hw =>
        he.rest w (h.field_lt w hw).2
  constructor
  · intro w hw
    rw [hf] at hw
    exact ⟨(h.field_lt w hw).1, Nat.lt_of_lt_of_le (h.field_lt w hw).2 he.next_le⟩
  · intro w hw
    rw [hf] at hw
    rw [hfield w hw]
    exact h.field_of w hw
  · rw [hf]
    exact h.nodup
  · rw [hvar, ← h.types]
    exact List.map_congr_left fun w hw => by rw [hfield w hw]
  · intro ha j w hw
    rw [hvar] at ha hw ⊢
    rw [hfield w (List.mem_of_getElem? hw)]
    exact h.name ha j w hw
  · intro c hc
    rw [hvar] at hc ⊢
    obtain ⟨text, htext⟩ := h.element_name c hc
    refine ⟨text, fun j w hw => ?_⟩
    rw [hfield w (List.mem_of_getElem? hw)]
    exact htext j w hw
  · rw [hvar]
    exact h.array
  · rw [hvar]
    exact h.parent_lt
  · intro c hc
    rw [hvar] at hc ⊢
    obtain ⟨ha, hlt, hca, hcc, hct⟩ := h.collective c hc
    rw [he.rest c (Nat.lt_trans hlt hv)]
    exact ⟨ha, hlt, hca, hcc, hct⟩

/-! ## What creation makes -/

/-- **What a new field leaves**: itself and its own fields, well formed. What was in
the store before is as it was. -/
structure NewField (t : Ty) (name : List Char) (p : ℕ) (σ σ' : Store) : Prop where
  grows : Extends σ σ'
  lt : σ.next < σ'.next
  same : ∀ u < σ.next, σ'.var u = σ.var u
  name : (σ'.var σ.next).name = name
  type : (σ'.var σ.next).type = t
  field_of : (σ'.var σ.next).fieldVarOf = some p
  not_array : (σ'.var σ.next).isArray = false
  ok : ∀ u, σ.next ≤ u → u < σ'.next → σ'.Ok u
  listed : ∀ u, σ.next < u → u < σ'.next → ∀ q, (σ'.var u).fieldVarOf = some q →
    q < σ'.next ∧ u ∈ (σ'.var q).fieldVars

/-- **What new fields of `v` leave**: `ws` are the fields themselves. They are named
with consecutive numbers from `j` on, have the types that are named in `fs`, and of
what was there before only `v` has changed. -/
structure NewFields (fs : Fields) (text : List Char) (j v : ℕ) (ws : List ℕ) (σ σ' : Store) :
    Prop where
  grows : Extends σ σ'
  same : ∀ u < σ.next, u ≠ v → σ'.var u = σ.var u
  fields : (σ'.var v).fieldVars = (σ.var v).fieldVars ++ ws
  types : ws.map (fun w => (σ'.var w).type) = fs.named
  lt : ∀ w ∈ ws, σ.next ≤ w ∧ w < σ'.next
  field_of : ∀ w ∈ ws, (σ'.var w).fieldVarOf = some v ∧ (σ'.var w).isArray = false
  nodup : ws.Nodup
  name : ∀ (i w : ℕ), ws[i]? = some w → (σ'.var w).name = fieldName text (j + i)
  ok : ∀ u, σ.next ≤ u → u < σ'.next → σ'.Ok u
  listed : ∀ u, σ.next ≤ u → u < σ'.next → ∀ q, (σ'.var u).fieldVarOf = some q →
    u ∈ (σ'.var q).fieldVars

theorem alloc_self (x : Variable) : (σ.alloc x).var σ.next = x := Function.update_self _ _ _

/-- What a new variable has to be: nothing's array and field at once, its
fields still to come, and its array there. -/
structure Fresh (σ : Store) (x : Variable) : Prop where
  fields : x.fieldVars = []
  parent_lt : ∀ p, x.fieldVarOf = some p → p < σ.next
  array : x.isArray = true → x.fieldVarOf = none
  collective : ∀ c, x.collective = some c → x.isArray = true ∧ c < σ.next ∧
    (σ.var c).isArray = true ∧ (σ.var c).collective = none ∧ (σ.var c).type = x.type

/-- **A new variable is well formed once its fields are made.** -/
theorem NewFields.ok_owner {fs : Fields} {ws : List ℕ} {x : Variable} {text : List Char}
    (h : NewFields fs text 0 σ.next ws (σ.alloc x) σ') (hx : σ.Fresh x)
    (ht : x.type.named = fs.named) (hn : x.isArray = false → x.name = text)
    (he : ∀ c, x.collective = some c → ∃ A, text = A ++ [']']) : σ'.Ok σ.next := by
  -- making the fields changes the owner in its list of fields only
  have hvar : σ'.var σ.next = { x with fieldVars := ws } := by
    have hrest := h.grows.rest σ.next (Nat.lt_succ_self _)
    rw [h.fields, alloc_self, hx.fields, List.nil_append] at hrest
    exact hrest
  constructor
  · intro w hw
    rw [hvar] at hw
    have := h.lt w hw
    have hnext : (σ.alloc x).next = σ.next + 1 := rfl
    omega
  · intro w hw
    rw [hvar] at hw
    exact h.field_of w hw
  · rw [hvar]
    exact h.nodup
  · rw [hvar]
    exact h.types.trans ht.symm
  · intro ha j w hw
    rw [hvar] at ha hw ⊢
    have := h.name j w hw
    rwa [Nat.zero_add, ← hn ha] at this
  · intro c hc
    rw [hvar] at hc
    obtain ⟨A, rfl⟩ := he c hc
    refine ⟨A, fun j w hw => ?_⟩
    rw [hvar] at hw
    have := h.name j w hw
    rwa [Nat.zero_add] at this
  · intro ha
    rw [hvar] at ha ⊢
    exact hx.array ha
  · intro p hp
    rw [hvar] at hp
    exact hx.parent_lt p hp
  · intro c hc
    rw [hvar] at hc ⊢
    obtain ⟨ha, hlt, hcoll⟩ := hx.collective c hc
    have hsame : σ'.var c = σ.var c := by
      rw [h.same c (Nat.lt_succ_of_lt hlt) (Nat.ne_of_lt hlt)]
      exact Function.update_of_ne (Nat.ne_of_lt hlt) _ _
    rw [hsame]
    exact ⟨ha, hlt, hcoll⟩

/-- A field without fields of its own. -/
theorem newField_scalar {name : List Char} (hp : p < σ.next) :
    NewField .scalar name p σ
      (σ.alloc { name := name, type := .scalar, fieldVarOf := some p }) := by
  have hself := alloc_self (σ := σ) { name := name, type := .scalar, fieldVarOf := some p }
  refine ⟨extends_alloc _, Nat.lt_succ_self _, fun u hu => Function.update_of_ne (by omega) _ _,
    by rw [hself], by rw [hself], by rw [hself], by rw [hself], fun u hu hu' => ?_,
    fun u hu hu' => ?_⟩
  · have hnext : (σ.alloc { name := name, type := .scalar, fieldVarOf := some p }).next =
      σ.next + 1 := rfl
    obtain rfl : u = σ.next := by omega
    constructor <;> rw [hself]
    · exact fun _ h => nomatch h
    · exact fun _ h => nomatch h
    · exact List.nodup_nil
    · rfl
    · exact fun _ _ _ h => nomatch h
    · exact fun _ h => nomatch h
    · exact fun h => nomatch h
    · rintro q hq
      obtain rfl := Option.some.inj hq
      exact hp
    · exact fun _ h => nomatch h
  · have hnext : (σ.alloc { name := name, type := .scalar, fieldVarOf := some p }).next =
      σ.next + 1 := rfl
    omega

/-- One field more, in front of the rest. -/
theorem NewField.cons {t : Ty} {n : ℤ} {rest : Fields} {text : List Char} {j : ℕ} {ws : List ℕ}
    (hv : v < σ.next) (hn : isUnamedPadding n = false)
    (h : NewField t (fieldName text j) v σ τ)
    (hrest : NewFields rest text (j + 1) v ws (τ.pushField v σ.next) σ') :
    NewFields (.cons t n rest) text j v (σ.next :: ws) σ σ' := by
  have hlt := h.lt
  have hnext : (τ.pushField v σ.next).next = τ.next := rfl
  have hne : σ.next ≠ v := by omega
  have hother : ∀ u, u ≠ v → (τ.pushField v σ.next).var u = τ.var u :=
    fun u hu => Function.update_of_ne hu _ _
  have hv' : ((τ.pushField v σ.next).var v).fieldVars = (σ.var v).fieldVars ++ [σ.next] := by
    show (Function.update τ.var v _ v).fieldVars = _
    rw [Function.update_self, h.same v hv]
  -- the new field, after those that follow it
  have hroot : σ'.var σ.next = { τ.var σ.next with
      fieldVars := (σ'.var σ.next).fieldVars } := by
    have := hrest.same σ.next (by omega) hne
    rw [hother _ hne] at this
    rw [this]
  have hgrow : Extends τ σ' := (extends_pushField v σ.next).trans hrest.grows
  constructor
  · exact h.grows.trans hgrow
  · intro u hu huv
    rw [hrest.same u (by omega) huv, hother u huv, h.same u hu]
  · rw [hrest.fields, hv', List.append_assoc]
    rfl
  · rw [Fields.named, if_neg (by rw [hn]; exact Bool.false_ne_true), List.map_cons, hrest.types,
      hroot, h.type]
  · refine List.forall_mem_cons.mpr ⟨⟨Nat.le_refl _, ?_⟩, fun w hw => ?_⟩
    · have := hrest.grows.next_le
      omega
    · have := hrest.lt w hw
      omega
  · refine List.forall_mem_cons.mpr ⟨?_, hrest.field_of⟩
    rw [hroot]
    exact ⟨h.field_of, h.not_array⟩
  · refine List.nodup_cons.mpr ⟨fun hmem => ?_, hrest.nodup⟩
    have := hrest.lt _ hmem
    omega
  · intro i w hi
    cases i with
    | zero =>
      obtain rfl := Option.some.inj hi
      rw [hroot, Nat.add_zero]
      exact h.name
    | succ i =>
      have := hrest.name i w hi
      rwa [Nat.add_right_comm] at this
  · intro u hu hu'
    rcases Nat.lt_or_ge u τ.next with hold | hnew
    · have huv : u ≠ v := by omega
      refine (h.ok u hu hold).extends hold hgrow ?_
      rw [hrest.same u hold huv, hother u huv]
    · exact hrest.ok u hnew hu'
  · intro u hu hu' q hq
    rcases Nat.lt_or_ge u τ.next with hold | hnew
    · rcases Nat.eq_or_lt_of_le hu with rfl | hlt'
      · -- the new field itself
        rw [hroot] at hq
        obtain rfl := Option.some.inj (h.field_of.symm.trans hq)
        rw [hrest.fields, hv']
        simp
      · have huv : u ≠ v := by omega
        rw [hrest.same u hold huv, hother u huv] at hq
        obtain ⟨hqlt, hmem⟩ := h.listed u hlt' hold q hq
        exact hgrow.grow q hqlt hmem
    · exact hrest.listed u hnew hu' q hq

mutual

/-- **The fields of a new field are made with it.** -/
theorem createField_spec : ∀ (t : Ty) (name : List Char) (p : ℕ) (σ : Store), p < σ.next →
    NewField t name p σ (createField t name p σ)
  | .scalar, name, p, σ, hp => newField_scalar hp
  | .aggregate fs, name, p, σ, hp => by
    obtain ⟨x, hx⟩ : ∃ x : Variable,
      x = { name := name, type := .aggregate fs, fieldVarOf := some p } := ⟨_, rfl⟩
    obtain ⟨ws, h⟩ := createFields_spec fs name 0 σ.next (σ.alloc x) (Nat.lt_succ_self _)
    rw [createField, ← hx]
    have hnext : (σ.alloc x).next = σ.next + 1 := rfl
    have hle := h.grows.next_le
    have hroot : (createFields fs name 0 σ.next (σ.alloc x)).var σ.next =
        { x with fieldVars := ws } := by
      have hrest := h.grows.rest σ.next (Nat.lt_succ_self _)
      have hnil : x.fieldVars = [] := by rw [hx]
      rw [h.fields, alloc_self, hnil, List.nil_append] at hrest
      exact hrest
    -- the field itself, once all of its own fields are there
    have hown : (createFields fs name 0 σ.next (σ.alloc x)).Ok σ.next := by
      have hfresh : σ.Fresh x := by
        rw [hx]
        refine ⟨rfl, fun q hq => ?_, fun h => (nomatch h), fun _ h => (nomatch h)⟩
        obtain rfl : p = q := Option.some.inj hq
        exact hp
      refine h.ok_owner hfresh (by rw [hx]; rfl) (fun _ => by rw [hx]) fun c hc => ?_
      rw [hx] at hc
      cases hc
    refine ⟨(extends_alloc x).trans h.grows, by omega, fun u hu => ?_, ?_, ?_, ?_, ?_,
      fun u hu hu' => ?_, fun u hu hu' q hq => ?_⟩
    · rw [h.same u (by omega) (by omega)]
      exact Function.update_of_ne (by omega) _ _
    · rw [hroot, hx]
    · rw [hroot, hx]
    · rw [hroot, hx]
    · rw [hroot, hx]
    · rcases Nat.eq_or_lt_of_le hu with rfl | hlt
      · exact hown
      · exact h.ok u (by omega) hu'
    · have hmem := h.listed u (by omega) hu' q hq
      have hq' := (h.ok u (by omega) hu').parent_lt q hq
      exact ⟨by omega, hmem⟩

/-- **The fields of a variable**, those that have names. -/
theorem createFields_spec : ∀ (fs : Fields) (text : List Char) (j v : ℕ) (σ : Store),
    v < σ.next → ∃ ws, NewFields fs text j v ws σ (createFields fs text j v σ)
  | .nil, text, j, v, σ, hv => by
    rw [createFields]
    exact ⟨[], .refl _, fun _ _ _ => rfl, (List.append_nil _).symm, rfl, fun _ h => (nomatch h),
      fun _ h => (nomatch h), List.nodup_nil, fun _ _ h => (nomatch h),
      fun u hu hu' => absurd hu (Nat.not_le.mpr hu'),
      fun u hu hu' => absurd hu (Nat.not_le.mpr hu')⟩
  | .cons t n rest, text, j, v, σ, hv => by
    rw [createFields]
    split
    · next hn =>
      obtain ⟨ws, h⟩ := createFields_spec rest text j v σ hv
      refine ⟨ws, h.grows, h.same, h.fields, ?_, h.lt, h.field_of, h.nodup, h.name, h.ok, h.listed⟩
      rw [Fields.named, if_pos hn]
      exact h.types
    · next hn =>
      have hfield := createField_spec t (fieldName text j) v σ hv
      obtain ⟨ws, h⟩ := createFields_spec rest text (j + 1) v
        ((createField t (fieldName text j) v σ).pushField v σ.next)
        (Nat.lt_of_lt_of_le hv hfield.grows.next_le)
      exact ⟨_, hfield.cons hv (by simpa using hn) h⟩

end

/-- The text of an element ends in a bracket. -/
theorem output_element {text : List Char} (hc : (σ.var v).collective = some c)
    (h : σ.output prefixed v = some text) : ∃ A, text = A ++ [']'] := by
  unfold output at h
  rw [hc] at h
  dsimp only at h
  split at h
  · cases h
  · next hne =>
    obtain rfl := Option.some.inj h
    obtain ⟨init, last, hl⟩ := List.eq_nil_or_concat' (σ.var v).indices |>.resolve_left hne
    refine ⟨σ.getActualName prefixed v ++
      (init.flatMap fun index => '[' :: (index ++ [']'])) ++ '[' :: last, ?_⟩
    rw [hl, List.flatMap_append]
    simp

/-- What is created with a variable, and by which text. -/
theorem createFieldVars_spec {x : Variable} (hx : σ.Fresh x)
    (hr : (σ.alloc x).createFieldVars prefixed σ.next = some σ') :
    ∃ fs ws text, NewFields fs text 0 σ.next ws (σ.alloc x) σ' ∧ x.type.named = fs.named ∧
      (x.isArray = false → x.name = text) ∧
      ∀ c, x.collective = some c → ∃ A, text = A ++ [']'] := by
  unfold createFieldVars at hr
  rw [alloc_self] at hr
  cases ht : x.type with
  | scalar =>
    rw [ht] at hr
    obtain rfl := Option.some.inj hr
    obtain ⟨ws, h⟩ := createFields_spec .nil (if x.isArray then [']'] else x.name) 0 σ.next
      (σ.alloc x) (Nat.lt_succ_self _)
    refine ⟨.nil, ws, _, h, rfl, fun ha => ?_, fun c hc => ⟨[], ?_⟩⟩
    · rw [ha]
      rfl
    · rw [(hx.collective c hc).1]
      rfl
  | aggregate fs =>
    rw [ht] at hr
    obtain ⟨text, htext, rfl⟩ := Option.map_eq_some_iff.mp hr
    obtain ⟨ws, h⟩ := createFields_spec fs text 0 σ.next (σ.alloc x) (Nat.lt_succ_self _)
    refine ⟨fs, ws, text, h, rfl, fun ha => ?_, fun c hc => ?_⟩
    · rw [ha] at htext
      exact Option.some.inj htext
    · rw [(hx.collective c hc).1] at htext
      refine output_element (v := σ.next) (c := c) ?_ htext
      rw [alloc_self, hc]

/-- **A store stays well formed when a variable is created.** -/
theorem Wf.create {x : Variable} (h : σ.Wf) (hx : σ.Fresh x) (hnone : x.fieldVarOf = none)
    (hr : (σ.alloc x).createFieldVars prefixed σ.next = some σ') : σ'.Wf := by
  obtain ⟨fs, ws, text, hnew, ht, hn, he⟩ := createFieldVars_spec hx hr
  have hnext : (σ.alloc x).next = σ.next + 1 := rfl
  have hself : σ'.var σ.next = { x with fieldVars := ws } := by
    have hrest := hnew.grows.rest σ.next (Nat.lt_succ_self _)
    rw [hnew.fields, alloc_self, hx.fields, List.nil_append] at hrest
    exact hrest
  have hold : ∀ u < σ.next, σ'.var u = σ.var u := fun u hu => by
    rw [hnew.same u (by omega) (by omega)]
    exact Function.update_of_ne (by omega) _ _
  constructor
  · intro u hu
    rcases Nat.lt_trichotomy u σ.next with hlt | rfl | hgt
    · exact (h.ok u hlt).extends hlt ((extends_alloc x).trans hnew.grows) (by rw [hold u hlt])
    · exact hnew.ok_owner hx ht hn he
    · exact hnew.ok u (by omega) hu
  · intro u hu q hq
    rcases Nat.lt_trichotomy u σ.next with hlt | rfl | hgt
    · rw [hold u hlt] at hq
      have hqu := (h.ok u hlt).parent_lt q hq
      rw [hold q (by omega)]
      exact h.listed u hlt q hq
    · rw [hself] at hq
      exact absurd (hnone.symm.trans hq) nofun
    · exact hnew.listed u (by omega) hu q hq

/-- **Every store the generator can make is well formed.** -/
theorem Made.wf (h : Made σ) : σ.Wf := by
  induction h with
  | empty =>
    exact ⟨fun v hv => absurd hv (Nat.not_lt_zero v), fun v hv => absurd hv (Nat.not_lt_zero v)⟩
  | «variable» h hstep ih =>
    refine Wf.create ih ?_ rfl hstep
    exact ⟨rfl, fun _ h => (nomatch h), fun h => (nomatch h), fun _ h => (nomatch h)⟩
  | array h hstep ih =>
    refine Wf.create ih ?_ rfl hstep
    exact ⟨rfl, fun _ h => (nomatch h), fun _ => rfl, fun _ h => (nomatch h)⟩
  | @element _ σ σ' v indices isGlobal h hv harray hstep ih =>
    unfold itemize at hstep
    split at hstep
    · cases hstep
    · next hc =>
      have hnone : (σ.var v).collective = none := Option.not_isSome_iff_eq_none.mp hc
      have htop := (ih.ok v hv).array harray
      refine Wf.create ih ?_ ?_ hstep
      swap
      · exact htop
      refine ⟨rfl, fun p hp => ?_, fun _ => htop, fun c hc' => ?_⟩
      · exact absurd (htop.symm.trans hp) nofun
      · obtain rfl : v = c := Option.some.inj hc'
        exact ⟨harray, hv, harray, hnone, rfl⟩

/-! ## Paths -/

theorem follow_append {l m : List ℕ} :
    σ.follow v (l ++ m) = (σ.follow v l).bind fun w => σ.follow w m := by
  induction l generalizing v with
  | nil => rfl
  | cons i l ih =>
    rw [List.cons_append, follow, follow]
    cases (σ.var v).fieldVars[i]? with
    | none => rfl
    | some w => exact ih

/-- The last step of a path. -/
theorem follow_concat {l : List ℕ} {i : ℕ} (h : σ.follow v (l ++ [i]) = some w) :
    ∃ u, σ.follow v l = some u ∧ (σ.var u).fieldVars[i]? = some w := by
  rw [follow_append] at h
  obtain ⟨u, hu, h⟩ := Option.bind_eq_some_iff.mp h
  obtain ⟨w', hw', h⟩ := Option.bind_eq_some_iff.mp h
  obtain rfl : w' = w := Option.some.inj h
  exact ⟨u, hu, hw'⟩

theorem follow_lt {l : List ℕ} (h : σ.Wf) (hv : v < σ.next) (hw : σ.follow v l = some w) :
    w < σ.next ∧ (l = [] ∧ w = v ∨ v < w) := by
  induction l generalizing v with
  | nil =>
    obtain rfl : v = w := Option.some.inj hw
    exact ⟨hv, .inl ⟨rfl, rfl⟩⟩
  | cons i l ih =>
    obtain ⟨u, hu, hw⟩ := Option.bind_eq_some_iff.mp hw
    obtain ⟨hlt, hu'⟩ := (h.ok v hv).field_lt u (List.mem_of_getElem? hu)
    obtain ⟨hw', hcase⟩ := ih hu' hw
    refine ⟨hw', .inr ?_⟩
    rcases hcase with ⟨-, rfl⟩ | hcase
    · exact hlt
    · omega

/-- **Distinct paths lead to distinct variables.** -/
theorem follow_inj {l m : List ℕ} (h : σ.Wf) (hv : v < σ.next) (hl : σ.follow v l = some w)
    (hm : σ.follow v m = some w) : l = m := by
  induction l using List.reverseRecOn generalizing m w with
  | nil =>
    obtain rfl : v = w := Option.some.inj hl
    rcases (follow_lt h hv hm).2 with ⟨hnil, -⟩ | hlt
    · exact hnil.symm
    · exact absurd hlt (Nat.lt_irrefl _)
  | append_singleton l i ih =>
    rcases List.eq_nil_or_concat' m with rfl | ⟨m, j, rfl⟩
    · obtain rfl : v = w := Option.some.inj hm
      rcases (follow_lt h hv hl).2 with ⟨hnil, -⟩ | hlt
      · exact absurd hnil (by simp)
      · exact absurd hlt (Nat.lt_irrefl _)
    · -- both come to the variable from what it is a field of
      obtain ⟨u, hu, hi⟩ := follow_concat hl
      obtain ⟨u', hu', hj⟩ := follow_concat hm
      have hok := h.ok u (follow_lt h hv hu).1
      have hok' := h.ok u' (follow_lt h hv hu').1
      have hparent := (hok.field_of w (List.mem_of_getElem? hi)).1
      have hparent' := (hok'.field_of w (List.mem_of_getElem? hj)).1
      obtain rfl : u = u' := Option.some.inj (hparent.symm.trans hparent')
      obtain rfl := ih hu hu'
      have hij : i = j := by
        obtain ⟨hilt, -⟩ := List.getElem?_eq_some_iff.mp hi
        exact (List.getElem?_inj hilt hok.nodup).mp (hi.trans hj.symm)
      rw [hij]

/-- **Variables of one type have the same paths.** -/
theorem follow_type {l : List ℕ} {v' : ℕ} (h : σ.Wf) (hv : v < σ.next) (hv' : v' < σ.next)
    (ht : (σ.var v).type = (σ.var v').type) (hw : σ.follow v l = some w) :
    ∃ w', σ.follow v' l = some w' := by
  induction l generalizing v v' with
  | nil => exact ⟨v', rfl⟩
  | cons i l ih =>
    obtain ⟨u, hu, hw⟩ := Option.bind_eq_some_iff.mp hw
    have hok := h.ok v hv
    have hok' := h.ok v' hv'
    have htypes : (σ.var v').fieldVars.map (fun w => (σ.var w).type) =
        (σ.var v).fieldVars.map fun w => (σ.var w).type := by
      rw [hok.types, hok'.types, ht]
    have hi := congrArg (fun l : List Ty => l[i]?) htypes
    simp only [List.getElem?_map, hu, Option.map_some] at hi
    obtain ⟨u', hu', htu⟩ := Option.map_eq_some_iff.mp hi
    have hul := (hok.field_lt u (List.mem_of_getElem? hu)).2
    have hul' := (hok'.field_lt u' (List.mem_of_getElem? hu')).2
    obtain ⟨w', hw'⟩ := ih hul hul' htu.symm hw
    exact ⟨w', by rw [follow, hu']; exact hw'⟩

/-! ## Names -/

/-- The field numbers of a path, as they are printed. -/
def segments (l : List ℕ) : List Char := l.flatMap fun i => '.' :: 'f' :: decimal i

theorem segments_concat {l : List ℕ} {i : ℕ} :
    segments (l ++ [i]) = segments l ++ '.' :: 'f' :: decimal i := by
  simp [segments]

/-- **The name of a field of an element** is the text of the element, which ends
in a bracket, and the path. -/
theorem name_follow (h : σ.Wf) (hv : v < σ.next)
    (hc : (σ.var v).collective = some c) :
    ∃ text, ∀ l i w, σ.follow v (l ++ [i]) = some w →
      (σ.var w).name = text ++ ']' :: segments (l ++ [i]) ∧ (σ.var w).isArray = false := by
  obtain ⟨text, htext⟩ := (h.ok v hv).element_name c hc
  refine ⟨text, fun l => ?_⟩
  induction l using List.reverseRecOn with
  | nil =>
    intro i w hw
    obtain ⟨u, hu, hi⟩ := follow_concat hw
    obtain rfl : v = u := Option.some.inj hu
    refine ⟨?_, ((h.ok v hv).field_of w (List.mem_of_getElem? hi)).2⟩
    rw [htext i w hi, fieldName, segments_concat]
    simp [segments]
  | append_singleton l j ih =>
    intro i w hw
    obtain ⟨u, hu, hi⟩ := follow_concat hw
    obtain ⟨hname, harr⟩ := ih j u hu
    have hok := h.ok u (follow_lt h hv hu).1
    refine ⟨?_, (hok.field_of w (List.mem_of_getElem? hi)).2⟩
    rw [hok.name harr i w hi, fieldName, hname, segments_concat (i := i)]
    simp

theorem not_mem_decimal {ch : Char} (hch : ch.isDigit = false) (i : ℕ) : ch ∉ decimal i := by
  intro hmem
  rw [isDigit_of_mem_decimal i ch hmem] at hch
  cases hch

theorem not_mem_segments {ch : Char} (hch : ch.isDigit = false) (hdot : ch ≠ '.') (hf : ch ≠ 'f')
    (l : List ℕ) : ch ∉ segments l := by
  intro hmem
  obtain ⟨i, -, hmem⟩ := List.mem_flatMap.mp hmem
  rcases List.mem_cons.mp hmem with he | hmem
  · exact hdot he
  · rcases List.mem_cons.mp hmem with he | hmem
    · exact hf he
    · exact not_mem_decimal hch i hmem

theorem fieldAt_natCast (c i : ℕ) : σ.fieldAt c i = (σ.var c).fieldVars[i]? := by
  unfold fieldAt
  rw [if_pos (Int.natCast_nonneg i), Int.toNat_natCast]

theorem followNames_none (s : List Char) (k : ℕ) : σ.followNames s k none c = some c := by
  cases k with
  | zero => rfl
  | succ k => rfl

/-- **The loop over the dots follows the path** the names were printed from. -/
theorem followNames_segments {P : List Char} {i : ℕ} {l : List ℕ} (hP : P.length = n)
    {k : ℕ} (hk : l.length < k) :
    σ.followNames (P ++ segments (i :: l)) k (some n) c = σ.follow c (i :: l) := by
  induction l generalizing P n k c i with
  | nil =>
    obtain ⟨k, rfl⟩ : ∃ m, k = m + 1 := ⟨k - 1, by omega⟩
    have hsplit : P ++ segments [i] = (P ++ ['.', 'f']) ++ decimal i := by simp [segments]
    have hsplit' : P ++ segments [i] = (P ++ ['.']) ++ 'f' :: decimal i := by simp [segments]
    have hfind : find (P ++ segments [i]) '.' (n + 1) = none := by
      rw [hsplit']
      refine find_none (by simp [hP]) fun hmem => ?_
      rcases List.mem_cons.mp hmem with he | hmem
      · exact absurd he (by decide)
      · exact not_mem_decimal (by decide) i hmem
    have hsub : substr (P ++ segments [i]) (n + 2) = some (decimal i) := by
      rw [hsplit]
      exact substr_append (by simp [hP])
    rw [followNames, hfind]
    simp only [hsub, str2int_decimal, Option.bind_eq_bind, Option.bind_some, fieldAt_natCast,
      followNames_none]
    rfl
  | cons j l ih =>
    obtain ⟨k, rfl⟩ : ∃ m, k = m + 1 := ⟨k - 1, by omega⟩
    have hsplit : P ++ segments (i :: j :: l) =
        (P ++ ['.', 'f']) ++ (decimal i ++ segments (j :: l)) := by simp [segments]
    have hsplit' : P ++ segments (i :: j :: l) = (P ++ ['.']) ++
        (('f' :: decimal i) ++ '.' :: ('f' :: decimal j ++ segments l)) := by simp [segments]
    have hnext : P ++ segments (i :: j :: l) =
        (P ++ '.' :: 'f' :: decimal i) ++ segments (j :: l) := by simp [segments]
    -- digits have no dot, so that the next one found ends the number
    have hfind : find (P ++ segments (i :: j :: l)) '.' (n + 1) =
        some (n + 2 + (decimal i).length) := by
      rw [hsplit', find_split (by simp [hP])]
      · rw [List.length_cons]
        exact congrArg some (by omega)
      · intro hmem
        rcases List.mem_cons.mp hmem with he | hmem
        · exact absurd he (by decide)
        · exact not_mem_decimal (by decide) i hmem
    have hsub : substrLen (P ++ segments (i :: j :: l)) (n + 2)
        (n + 2 + (decimal i).length - n - 2) = some (decimal i) := by
      rw [hsplit]
      exact substrLen_append (by simp [hP]) (by omega)
    rw [followNames, hfind]
    simp only [hsub, str2int_decimal, Option.bind_eq_bind, Option.bind_some, fieldAt_natCast]
    rw [follow]
    refine congrArg (Option.bind (σ.var c).fieldVars[i]?) (funext fun u => ?_)
    rw [hnext]
    exact ih (by simp [hP]; omega) (by simpa using hk)

/-! ## The collective -/

/-- The way up from a field leads to the array. -/
theorem topArray_follow (h : σ.Wf) (hv : v < σ.next) (ha : (σ.var v).isArray = true)
    {l : List ℕ} {i : ℕ} (hw : σ.follow v (l ++ [i]) = some w) (hn : w ≤ n) :
    σ.topArray n (σ.var w).fieldVarOf = some v := by
  induction l using List.reverseRecOn generalizing i w n with
  | nil =>
    obtain ⟨u, hu, hi⟩ := follow_concat hw
    obtain rfl : v = u := Option.some.inj hu
    have hok := h.ok v hv
    have hlt := (hok.field_lt w (List.mem_of_getElem? hi)).1
    obtain ⟨n, rfl⟩ : ∃ m, n = m + 1 := ⟨n - 1, by omega⟩
    rw [(hok.field_of w (List.mem_of_getElem? hi)).1, topArray, if_pos ha]
  | append_singleton l j ih =>
    obtain ⟨u, hu, hi⟩ := follow_concat hw
    have hok := h.ok u (follow_lt h hv hu).1
    have hlt := (hok.field_lt w (List.mem_of_getElem? hi)).1
    obtain ⟨n, rfl⟩ : ∃ m, n = m + 1 := ⟨n - 1, by omega⟩
    obtain ⟨x, hx, hj⟩ := follow_concat hu
    have hxok := h.ok x (follow_lt h hv hx).1
    have hnot := (hxok.field_of u (List.mem_of_getElem? hj)).2
    rw [(hok.field_of w (List.mem_of_getElem? hi)).1, topArray, hnot, if_neg Bool.false_ne_true]
    exact ih hu (by omega)

theorem isArrayField_follow (h : σ.Wf) (hv : v < σ.next) (ha : (σ.var v).isArray = true)
    {l : List ℕ} (hw : σ.follow v l = some w) (hn : w < n) :
    σ.isArrayFieldFrom n w = true := by
  induction l using List.reverseRecOn generalizing w n with
  | nil =>
    obtain rfl : v = w := Option.some.inj hw
    obtain ⟨n, rfl⟩ : ∃ m, n = m + 1 := ⟨n - 1, by omega⟩
    rw [isArrayFieldFrom, (h.ok v hv).array ha]
    exact ha
  | append_singleton l i ih =>
    obtain ⟨u, hu, hi⟩ := follow_concat hw
    have hok := h.ok u (follow_lt h hv hu).1
    have hlt := (hok.field_lt w (List.mem_of_getElem? hi)).1
    obtain ⟨n, rfl⟩ : ∃ m, n = m + 1 := ⟨n - 1, by omega⟩
    rw [isArrayFieldFrom, (hok.field_of w (List.mem_of_getElem? hi)).1]
    exact ih hu (by omega)

/-- **The collective of a field of an element** is the field of the array at the
same path. -/
theorem getCollective_element_field (h : σ.Wf) (hv : v < σ.next)
    (hc : (σ.var v).collective = some c) {l : List ℕ} {i : ℕ}
    (hw : σ.follow v (l ++ [i]) = some w) :
    σ.getCollective w = σ.follow c (l ++ [i]) := by
  obtain ⟨ha, hlt, -⟩ := (h.ok v hv).collective c hc
  obtain ⟨text, htext⟩ := name_follow h hv hc
  obtain ⟨hname, hnot⟩ := htext l i w hw
  have hfield : σ.isArrayField w = true := isArrayField_follow h hv ha hw (Nat.lt_succ_self w)
  have htop := topArray_follow h hv ha hw (Nat.le_succ w)
  -- the index expressions end with the last bracket; the path stands behind it
  have hlast : findLastOf (σ.var w).name ']' = some text.length := by
    rw [hname]
    exact findLastOf_split (not_mem_segments (by decide) (by decide) (by decide) _)
  have hsub : substr (σ.var w).name text.length = some (']' :: segments (l ++ [i])) := by
    rw [hname]
    exact substr_append rfl
  obtain ⟨j, m, hjm⟩ : ∃ j m, l ++ [i] = j :: m := by
    cases l with
    | nil => exact ⟨i, [], rfl⟩
    | cons j l => exact ⟨j, l ++ [i], rfl⟩
  have hfind : find (']' :: segments (l ++ [i])) '.' 0 = some 1 := by
    rw [hjm]
    exact find_split (P := []) (A := [']']) rfl (by decide)
  have hfollow := followNames_segments (σ := σ) (c := c) (P := [']']) (i := j) (l := m) (n := 1)
    (k := (']' :: segments (l ++ [i])).length) rfl (by
      rw [hjm]
      have hlen : ∀ m : List ℕ, m.length ≤ (segments m).length := by
        intro m
        induction m with
        | nil => exact Nat.le_refl _
        | cons x m ih => simp [segments] at ih ⊢; omega
      have := hlen (j :: m)
      simp only [List.length_cons] at this ⊢
      omega)
  unfold getCollective
  rw [hnot, if_neg Bool.false_ne_true, if_pos hfield]
  simp only [htop, hc, Option.getD_some, Nat.ne_of_lt hlt, if_false, hlast, hsub, hfind,
    Option.bind_eq_bind, Option.bind_some]
  rw [hjm] at hfollow ⊢
  exact hfollow

/-- A field of an array is its own collective. -/
theorem getCollective_array_field (h : σ.Wf) (hv : v < σ.next) (ha : (σ.var v).isArray = true)
    (hc : (σ.var v).collective = none) {l : List ℕ} (hw : σ.follow v l = some w) :
    σ.getCollective w = some w := by
  rcases List.eq_nil_or_concat' l with rfl | ⟨l, i, rfl⟩
  · obtain rfl : v = w := Option.some.inj hw
    unfold getCollective
    rw [if_pos ha, hc]
    rfl
  · obtain ⟨u, hu, hi⟩ := follow_concat hw
    have hnot := ((h.ok u (follow_lt h hv hu).1).field_of w (List.mem_of_getElem? hi)).2
    have hfield : σ.isArrayField w = true := isArrayField_follow h hv ha hw (Nat.lt_succ_self w)
    have htop := topArray_follow h hv ha hw (Nat.le_succ w)
    unfold getCollective
    rw [hnot, if_neg Bool.false_ne_true, if_pos hfield]
    simp only [htop, hc, Option.getD_none, if_true, Option.bind_eq_bind, Option.bind_some]

/-- **Where a variable belongs**: it is at a path from what it is no field of. -/
theorem exists_root (h : σ.Wf) (hw : w < σ.next) :
    ∃ v l, v ≤ w ∧ (σ.var v).fieldVarOf = none ∧ σ.follow v l = some w := by
  induction w using Nat.strong_induction_on with
  | _ w ih =>
    cases hp : (σ.var w).fieldVarOf with
    | none => exact ⟨w, [], Nat.le_refl _, hp, rfl⟩
    | some p =>
      have hlt := (h.ok w hw).parent_lt p hp
      obtain ⟨v, l, hle, hroot, hl⟩ := ih p hlt (by omega)
      obtain ⟨i, hi⟩ := List.mem_iff_getElem?.mp (h.listed w hw p hp)
      refine ⟨v, l ++ [i], by omega, hroot, ?_⟩
      rw [follow_append, hl]
      show (σ.follow p [i]) = some w
      rw [follow, hi]
      rfl

/-- A variable below one that is no array is no field of one. -/
theorem isArrayFieldFrom_plain (h : σ.Wf) (hv : v < σ.next) (ha : (σ.var v).isArray = false)
    (hroot : (σ.var v).fieldVarOf = none) {l : List ℕ} (hw : σ.follow v l = some w) :
    σ.isArrayFieldFrom n w = false ∧ (σ.var w).isArray = false := by
  induction l using List.reverseRecOn generalizing w n with
  | nil =>
    obtain rfl : v = w := Option.some.inj hw
    refine ⟨?_, ha⟩
    cases n with
    | zero => rfl
    | succ n =>
      rw [isArrayFieldFrom, hroot]
      exact ha
  | append_singleton l i ih =>
    obtain ⟨u, hu, hi⟩ := follow_concat hw
    have hok := h.ok u (follow_lt h hv hu).1
    refine ⟨?_, (hok.field_of w (List.mem_of_getElem? hi)).2⟩
    cases n with
    | zero => rfl
    | succ n =>
      rw [isArrayFieldFrom, (hok.field_of w (List.mem_of_getElem? hi)).1]
      exact (ih hu).1

/-- **`get_collective` is idempotent**, on every variable there is. -/
theorem getCollective_idem (h : σ.Wf) (hw : w < σ.next) :
    ∃ u, σ.getCollective w = some u ∧ σ.getCollective u = some u := by
  obtain ⟨v, l, hle, hroot, hl⟩ := exists_root h hw
  have hv : v < σ.next := by omega
  cases ha : (σ.var v).isArray with
  | false =>
    obtain ⟨hfield, hnot⟩ := isArrayFieldFrom_plain (n := w + 1) h hv ha hroot hl
    have hself : σ.getCollective w = some w := by
      unfold getCollective isArrayField
      rw [hnot, if_neg Bool.false_ne_true, hfield, if_neg Bool.false_ne_true]
    exact ⟨w, hself, hself⟩
  | true =>
    cases hc : (σ.var v).collective with
    | none =>
      have hself := getCollective_array_field h hv ha hc hl
      exact ⟨w, hself, hself⟩
    | some c =>
      obtain ⟨-, hlt, hca, hcc, hct⟩ := (h.ok v hv).collective c hc
      have hcn : c < σ.next := by omega
      obtain ⟨u, hu⟩ := follow_type h hv hcn hct.symm hl
      refine ⟨u, ?_, getCollective_array_field h hcn hca hcc hu⟩
      rcases List.eq_nil_or_concat' l with rfl | ⟨l, i, rfl⟩
      · obtain rfl : v = w := Option.some.inj hl
        obtain rfl : c = u := Option.some.inj hu
        unfold getCollective
        rw [if_pos ha, hc]
        rfl
      · rw [getCollective_element_field h hv hc hl, hu]

/-- **A field of an array element maps to the same field of the array.** In
every store the generator can make, for an element `v` of the array `c`: the
two have the same paths, `get_collective` takes the field of the element at a
path to that of the array, it is idempotent on every variable, and distinct
paths lead to distinct fields of the array. -/
theorem getCollective_follow (h : Made σ) (hv : v < σ.next)
    (hc : (σ.var v).collective = some c) :
    (∀ l, (σ.follow v l).isSome = (σ.follow c l).isSome) ∧
      (∀ l w, σ.follow v l = some w → σ.getCollective w = σ.follow c l) ∧
      (∀ w < σ.next, ∃ u, σ.getCollective w = some u ∧ σ.getCollective u = some u) ∧
      ∀ l m w w', σ.follow v l = some w → σ.follow v m = some w' →
        σ.getCollective w = σ.getCollective w' → l = m := by
  have hwf := h.wf
  obtain ⟨ha, hlt, hca, hcc, hct⟩ := (hwf.ok v hv).collective c hc
  have hcn : c < σ.next := by omega
  have hmap : ∀ l w, σ.follow v l = some w → σ.getCollective w = σ.follow c l := by
    intro l w hl
    rcases List.eq_nil_or_concat' l with rfl | ⟨l, i, rfl⟩
    · obtain rfl : v = w := Option.some.inj hl
      unfold getCollective
      rw [if_pos ha, hc]
      rfl
    · exact getCollective_element_field hwf hv hc hl
  refine ⟨fun l => ?_, hmap, fun w hw => getCollective_idem hwf hw, fun l m w w' hl hm heq => ?_⟩
  · rw [Bool.eq_iff_iff, Option.isSome_iff_exists, Option.isSome_iff_exists]
    exact ⟨fun ⟨_, hw⟩ => follow_type hwf hv hcn hct.symm hw,
      fun ⟨_, hw⟩ => follow_type hwf hcn hv hct hw⟩
  · obtain ⟨u, hu⟩ := follow_type hwf hv hcn hct.symm hl
    rw [hmap l w hl, hmap m w' hm, hu] at heq
    exact follow_inj hwf hcn hu heq.symm

/-- A structure with padding and a structure inside. -/
def sampleType : Ty :=
  .aggregate (.cons .scalar (-1) (.cons .scalar 0
    (.cons (.aggregate (.cons .scalar 3 (.cons .scalar (-1) .nil))) (-1) .nil)))

/-- The element `a[b[0].f1]` of an array `a` of these: its field `.f1.f1`. -/
theorem getCollective_follow_sample : ∃ σ : Store, Made σ ∧ σ.follow 5 [1, 1] = some 9 ∧
    σ.follow 0 [1, 1] = some 4 ∧ σ.getCollective 9 = some 4 := by
  obtain ⟨σ, harray, hlt, ha, σ', helement, hcoll, hnext, hl, hr⟩ : ∃ σ : Store,
      ({} : Store).createArrayVariable id ['a'] sampleType true = some σ ∧ 0 < σ.next ∧
      (σ.var 0).isArray = true ∧ ∃ σ' : Store,
      σ.itemize id 0 ["b[0].f1".toList] true = some σ' ∧ (σ'.var 5).collective = some 0 ∧
      5 < σ'.next ∧ σ'.follow 5 [1, 1] = some 9 ∧ σ'.follow 0 [1, 1] = some 4 :=
    ⟨_, rfl, by decide, rfl, _, rfl, rfl, by decide, rfl, rfl⟩
  have hmade : Made σ' := (Made.empty.array harray).element hlt ha helement
  refine ⟨σ', hmade, hl, hr, ?_⟩
  rw [(getCollective_follow hmade hnext hcoll).2.1 _ _ hl, hr]

end Store

end Variables

end CLSmith
