import CLSmith.VariableSelector
import CLSmith.Goto.Initialisers
/-!
# The scopes of a program

What a program under construction declares, in its file, in its functions and in their
blocks. A variable is written with its own name, or as an element with that of its
array and its indices; its declaration refers to what is in its initial values. A
program is in order if every declaration refers to nothing but what is declared before
it, and this is kept by every new variable and every new declaration.
-/

namespace CLSmith

namespace VariableSelector

open Generate (FlowGraph FlowEvent Func Building)

variable {M : Type}

/-- **Where something is declared**: at the top of the file, as a parameter, or in a
block of a function. -/
inductive Scope
  | file
  | function (i : ℕ)
  | block (i b : ℕ)
deriving DecidableEq

/-- The scope of the place a variable is made in. -/
def Place.scope : Place → Scope
  | none => .file
  | some p => .block p.1 p.2

namespace State

variable (σ : State M)

/-- **What a variable is written with**: its own name, or as an element that of its
array and what the indices are written with. -/
inductive Names : ℕ → ℕ → Prop
  | plain {v : ℕ} (h : (σ.var v).collective = none) : Names v v
  | element {v a : ℕ} (h : (σ.var v).collective = some a) : Names v a
  | index {v u w : ℕ} (hu : u ∈ (σ.var v).indices) (h : Names u w) : Names v w

/-- What the declaration of a variable refers to: what is in its initial values, and
for an element what it is written with. -/
def Refs (v w : ℕ) : Prop := w ≠ v ∧ σ.Names v w ∨ ∃ u ∈ (σ.var v).init, σ.Names u w

/-- A scope and those around it. -/
def around : Scope → List Scope
  | .file => [.file]
  | .function i => [.function i, .file]
  | .block i b => ((σ.func i).func.chain b).map (.block i) ++ [.function i, .file]

/-- What is declared in a scope. -/
def decls : Scope → List ℕ
  | .file => σ.buffers ++ σ.globalList
  | .function i => σ.param i
  | .block i b => σ.localVars i b

/-- **The scopes of a program.** Around a block are the blocks it is in, its function
and the file. -/
def scopes : Common.Scopes Scope ℕ where
  around s t := t ∈ σ.around s
  decls := σ.decls
  refs := σ.Refs

/-- A scope that is there. -/
def There : Scope → Prop
  | .block i b => b < (σ.func i).func.nextBlock
  | _ => True

/-- All that a variable is written with is visible. -/
def Shown (s : Scope) (v : ℕ) : Prop :=
  v < σ.nextVar ∧ ∀ w, σ.Names v w → σ.scopes.Visible s w

end State

/-- The variables a variable refers to. -/
def Variable.parts (x : Variable) : List ℕ := x.init ++ x.indices ++ x.collective.toList

/-- The open blocks stand in one another. -/
def Nested (f : Func M) : Prop :=
  ∀ b rest, b :: rest <:+ f.stack → (f.block b).parent = rest.head?

/-- **A program whose declarations are in order**, and whose variables are used where
they are visible. -/
structure Declared (σ : State M) : Prop where
  building : ∀ i, Building (σ.func i)
  nested : ∀ i, Nested (σ.func i).func
  unborn : ∀ i b, (σ.func i).func.nextBlock ≤ b → σ.localVars i b = []
  parts : ∀ v < σ.nextVar, ∀ u ∈ (σ.var v).parts, u < σ.nextVar
  declared : ∀ s, ∀ v ∈ σ.decls s, v < σ.nextVar
  ordered : σ.scopes.Ordered
  unique : σ.scopes.Unique
  used : ∀ e ∈ σ.used, σ.There (.block e.1 e.2.1) ∧ σ.Shown (.block e.1 e.2.1) e.2.2

/-- **The program goes on**: what is there and what is declared stays as it is. -/
structure Later (σ σ' : State M) : Prop where
  nextVar_le : σ.nextVar ≤ σ'.nextVar
  var : ∀ v < σ.nextVar, σ'.var v = σ.var v
  nextBlock_le : ∀ i, (σ.func i).func.nextBlock ≤ (σ'.func i).func.nextBlock
  chain : ∀ i, ∀ b < (σ.func i).func.nextBlock,
    (σ'.func i).func.chain b = (σ.func i).func.chain b
  decls : ∀ s, ∀ v ∈ σ.decls s, v ∈ σ'.decls s

variable {σ σ' σ'' : State M} {s t : Scope} {i b v w : ℕ}

/-! ## Programs that go on -/

namespace Later

theorem refl (σ : State M) : Later σ σ :=
  ⟨Nat.le_refl _, fun _ _ => rfl, fun _ => Nat.le_refl _, fun _ _ _ => rfl, fun _ _ hv => hv⟩

theorem trans (h : Later σ σ') (h' : Later σ' σ'') : Later σ σ'' where
  nextVar_le := h.nextVar_le.trans h'.nextVar_le
  var v hv := (h'.var v (lt_of_lt_of_le hv h.nextVar_le)).trans (h.var v hv)
  nextBlock_le i := (h.nextBlock_le i).trans (h'.nextBlock_le i)
  chain i b hb := (h'.chain i b (lt_of_lt_of_le hb (h.nextBlock_le i))).trans (h.chain i b hb)
  decls s v hv := h'.decls s v (h.decls s v hv)

theorem there (h : Later σ σ') (hs : σ.There s) : σ'.There s := by
  cases s with
  | file => exact hs
  | function i => exact hs
  | block i b => exact lt_of_lt_of_le hs (h.nextBlock_le i)

theorem around (h : Later σ σ') (hs : σ.There s) : σ'.around s = σ.around s := by
  cases s with
  | file => rfl
  | function i => rfl
  | block i b =>
    have hchain := h.chain i b hs
    simp only [State.around, hchain]

end Later

theorem State.mem_around_self : s ∈ σ.around s := by
  cases s with
  | file => exact List.mem_singleton_self _
  | function i => exact List.mem_cons_self
  | block i b => exact List.mem_append_left _ (List.mem_map_of_mem Func.mem_chain_self)

/-! ## What a variable refers to -/

namespace State

theorem names_plain (hcol : (σ.var v).collective = none) (hind : (σ.var v).indices = [])
    (hn : σ.Names v w) : w = v := by
  cases hn with
  | plain => rfl
  | element hc =>
    rw [hcol] at hc
    cases hc
  | index hu =>
    rw [hind] at hu
    cases hu

theorem names_element {a : ℕ} (hcol : (σ.var v).collective = some a) (hn : σ.Names v w) :
    w = a ∨ ∃ u ∈ (σ.var v).indices, σ.Names u w := by
  cases hn with
  | plain hc =>
    rw [hcol] at hc
    cases hc
  | element hc =>
    rw [hcol] at hc
    exact .inl (Option.some.inj hc).symm
  | index hu hn => exact .inr ⟨_, hu, hn⟩

/-- A variable that is no element refers to what its initial values are written with. -/
theorem refs_plain (hcol : (σ.var v).collective = none) (hind : (σ.var v).indices = [])
    (hr : σ.Refs v w) : ∃ u ∈ (σ.var v).init, σ.Names u w := by
  rcases hr with ⟨hne, hn⟩ | hinit
  · exact absurd (names_plain hcol hind hn) hne
  · exact hinit

end State

/-! ## What is visible -/

namespace State

theorem visible_global (hv : v ∈ σ.globalList) : σ.scopes.Visible s v := by
  refine ⟨.file, ?_, List.mem_append_right _ hv⟩
  show Scope.file ∈ σ.around s
  cases s <;> simp [State.around]

theorem visible_local {c : ℕ} (hc : c ∈ (σ.func i).func.chain b) (hv : v ∈ σ.localVars i c) :
    σ.scopes.Visible (.block i b) v :=
  ⟨.block i c, List.mem_append_left _ (List.mem_map_of_mem hc), hv⟩

theorem visible_param (hv : v ∈ σ.param i) : σ.scopes.Visible (.block i b) v :=
  ⟨.function i, List.mem_append_right _ List.mem_cons_self, hv⟩

theorem visible_of_findAllVisibleVars {p : Place} (hv : v ∈ σ.findAllVisibleVars p) :
    σ.scopes.Visible p.scope v := by
  cases p with
  | none => exact visible_global hv
  | some q =>
    rcases List.mem_append.mp hv with hv | hv
    · exact visible_global hv
    · obtain ⟨c, hc, hvc⟩ := List.mem_flatMap.mp hv
      exact visible_local hc hvc

theorem visible_of_initVars {atomic : Bool} {p : Place} (hv : v ∈ σ.initVars atomic p) :
    σ.scopes.Visible p.scope v := by
  cases p with
  | none =>
    cases atomic with
    | true => cases hv
    | false => exact visible_global hv
  | some q =>
    cases atomic with
    | true => exact visible_local Func.mem_chain_self hv
    | false => exact visible_of_findAllVisibleVars hv

end State

/-! ## Declared programs -/

namespace Declared

variable (h : Declared σ)
include h

theorem chain_lt {c : ℕ} (hb : b < (σ.func i).func.nextBlock)
    (hc : c ∈ (σ.func i).func.chain b) : c < (σ.func i).func.nextBlock :=
  lt_of_le_of_lt (Func.lt_of_mem_chain (h.building i).wf.parent_lt hc) hb

/-- What is around a scope has around it what is around the scope. -/
theorem around_trans (ht : t ∈ σ.around s) : σ.around t ⊆ σ.around s := by
  cases s with
  | file =>
    obtain rfl := List.mem_singleton.mp ht
    exact List.Subset.refl _
  | function i =>
    rcases List.mem_cons.mp ht with rfl | ht
    · exact List.Subset.refl _
    · obtain rfl := List.mem_singleton.mp ht
      exact List.subset_cons_self _ _
  | block i b =>
    rcases List.mem_append.mp ht with ht | ht
    · obtain ⟨c, hc, rfl⟩ := List.mem_map.mp ht
      have hsub := Func.chain_subset (h.building i).wf.parent_lt hc
      exact List.append_subset.mpr ⟨List.subset_append_of_subset_left _ (List.map_subset _ hsub),
        List.subset_append_right _ _⟩
    · refine List.subset_append_of_subset_right _ ?_
      rcases List.mem_cons.mp ht with rfl | ht
      · exact List.Subset.refl _
      · obtain rfl := List.mem_singleton.mp ht
        exact List.subset_cons_self _ _

theorem there_of_decls (hs : σ.decls s ≠ []) : σ.There s := by
  cases s with
  | file => trivial
  | function i => trivial
  | block i b =>
    by_contra hnot
    exact hs (h.unborn i b (Nat.le_of_not_lt hnot))

theorem names_later (hl : Later σ σ') (hv : v < σ.nextVar) : σ'.Names v w ↔ σ.Names v w := by
  constructor
  · intro hn
    induction hn with
    | plain hc =>
      rw [hl.var _ hv] at hc
      exact .plain hc
    | element hc =>
      rw [hl.var _ hv] at hc
      exact .element hc
    | index hu _ ih =>
      rw [hl.var _ hv] at hu
      exact .index hu (ih (h.parts _ hv _ (by simp [Variable.parts, hu])))
  · intro hn
    induction hn with
    | plain hc =>
      rw [← hl.var _ hv] at hc
      exact .plain hc
    | element hc =>
      rw [← hl.var _ hv] at hc
      exact .element hc
    | @index v u w hu _ ih =>
      have hlt := h.parts _ hv u (by simp [Variable.parts, hu])
      rw [← hl.var _ hv] at hu
      exact .index hu (ih hlt)

theorem refs_later (hl : Later σ σ') (hv : v < σ.nextVar) (hr : σ'.Refs v w) : σ.Refs v w := by
  rcases hr with ⟨hne, hn⟩ | ⟨u, hu, hn⟩
  · exact .inl ⟨hne, (h.names_later hl hv).mp hn⟩
  · rw [hl.var v hv] at hu
    exact .inr ⟨u, hu, (h.names_later hl (h.parts v hv u (by simp [Variable.parts, hu]))).mp hn⟩

theorem grows (hl : Later σ σ') : Common.Scopes.Grows σ.scopes σ'.scopes σ.There where
  around s t hs ht := by
    show t ∈ σ'.around s
    rwa [hl.around hs]
  decls := hl.decls
  refs s v w hv hr := h.refs_later hl (h.declared s v hv) hr

theorem shown_later (hl : Later σ σ') (hs : σ.There s) (hv : σ.Shown s v) : σ'.Shown s v :=
  ⟨lt_of_lt_of_le hv.1 hl.nextVar_le,
    fun w hw => (hv.2 w ((h.names_later hl hv.1).mp hw)).mono (h.grows hl) hs⟩

theorem visible_inner (ht : t ∈ σ.around s) (hw : σ.scopes.Visible t w) :
    σ.scopes.Visible s w :=
  hw.inner fun _ hu => h.around_trans ht hu

/-- **What a visible variable is written with is visible.** -/
theorem shown_of_visible (hv : σ.scopes.Visible s v) : σ.Shown s v := by
  obtain ⟨t, ht, hvt⟩ := hv
  refine ⟨h.declared t v hvt, fun w hw => ?_⟩
  by_cases hwv : w = v
  · rw [hwv]
    exact ⟨t, ht, hvt⟩
  · exact h.visible_inner ht (h.ordered.visible State.mem_around_self hvt (.inl ⟨hwv, hw⟩))

end Declared

/-! ## Variables made and declared -/

/-- A variable is made for a scope, and not declared yet. -/
structure Made (σ σ' : State M) (s : Scope) (v : ℕ) : Prop where
  declared : Declared σ'
  later : Later σ σ'
  lt : v < σ'.nextVar
  fresh : ∀ t, v ∉ σ'.decls t
  refs : ∀ w, σ'.Refs v w → σ'.scopes.Visible s w

/-- Variables are found for a scope: the state they are found in is declared and
later, and they are shown there. -/
structure Found (σ σ' : State M) (s : Scope) (vs : List ℕ) : Prop where
  declared : Declared σ'
  later : Later σ σ'
  shown : ∀ v ∈ vs, σ'.Shown s v

theorem Found.outer {vs : List ℕ} (h : Found σ σ' t vs)
    (ht : t ∈ σ'.around s) : Found σ σ' s vs :=
  ⟨h.declared, h.later, fun v hv =>
    ⟨(h.shown v hv).1, fun w hw => h.declared.visible_inner ht ((h.shown v hv).2 w hw)⟩⟩

theorem Found.after {vs : List ℕ} (h : Found σ' σ'' s vs) (hl : Later σ σ') : Found σ σ'' s vs :=
  ⟨h.declared, hl.trans h.later, h.shown⟩

namespace Declared

variable (h : Declared σ)
include h

theorem newVariable {x : Variable} (hx : ∀ u ∈ x.parts, u < σ.nextVar) :
    Declared (σ.newVariable x) ∧ Later σ (σ.newVariable x) := by
  have hdecls : ∀ s, (σ.newVariable x).decls s = σ.decls s := by
    intro s
    cases s <;> rfl
  have hvar : ∀ v < σ.nextVar, (σ.newVariable x).var v = σ.var v :=
    fun v hv => Function.update_of_ne (by omega) _ _
  have hl : Later σ (σ.newVariable x) :=
    ⟨Nat.le_succ _, hvar, fun _ => Nat.le_refl _, fun _ _ _ => rfl, fun s v hv => by
      rwa [hdecls]⟩
  refine ⟨⟨h.building, h.nested, h.unborn, ?_, ?_, ?_, ?_, ?_⟩, hl⟩
  · intro v hv u hu
    rcases Nat.lt_succ_iff_lt_or_eq.mp hv with hlt | rfl
    · rw [hvar v hlt] at hu
      exact Nat.lt_succ_of_lt (h.parts v hlt u hu)
    · have hnew : (σ.newVariable x).var σ.nextVar = x := Function.update_self ..
      rw [hnew] at hu
      exact Nat.lt_succ_of_lt (hx u hu)
  · intro s v hv
    rw [hdecls] at hv
    exact Nat.lt_succ_of_lt (h.declared s v hv)
  · exact h.ordered.same (h.grows hl) (fun s => h.there_of_decls) hdecls
  · exact h.unique.same hdecls
  · intro e he
    obtain ⟨hs, hv⟩ := h.used e he
    exact ⟨hs, h.shown_later hl hs hv⟩

/-- **One more declaration** of a variable that is there, in a scope that is there. -/
theorem declares (hl : Later σ σ') (hbuild : ∀ i, Building (σ'.func i))
    (hnested : ∀ i, Nested (σ'.func i).func)
    (hunborn : ∀ i b, (σ'.func i).func.nextBlock ≤ b → σ'.localVars i b = [])
    (hvar : σ'.var = σ.var) (hnext : σ'.nextVar = σ.nextVar) (hused : σ'.used = σ.used)
    (hd : Common.Scopes.Declares σ.scopes σ'.scopes s v) (hs : σ.There s)
    (hv : v < σ.nextVar) (hrefs : ∀ w, σ.Refs v w → σ.scopes.Visible s w) : Declared σ' := by
  refine ⟨hbuild, hnested, hunborn, ?_, ?_, ?_, h.unique.declare hd, ?_⟩
  · rw [hvar, hnext]
    exact h.parts
  · intro t u hu
    rw [hnext]
    have hu' : u ∈ σ'.scopes.decls t := hu
    by_cases hts : t = s
    · rw [hts, hd.here] at hu'
      rcases List.mem_append.mp hu' with hu' | hu'
      · exact h.declared s u hu'
      · rw [List.mem_singleton.mp hu']
        exact hv
    · rw [hd.there t hts] at hu'
      exact h.declared t u hu'
  · exact h.ordered.declare (h.grows hl) (fun s => h.there_of_decls) hd hs
      fun w hw => hrefs w (h.refs_later hl hv hw)
  · intro e he
    rw [hused] at he
    obtain ⟨hs, hv⟩ := h.used e he
    exact ⟨hl.there hs, h.shown_later hl hs hv⟩

end Declared

theorem State.func_declare (i j c v : ℕ) : (σ.declare v (some (j, c))).func i =
    if i = j then { σ.func j with func := (σ.func j).func.newLocal c v } else σ.func i := by
  show Function.update σ.func j _ i = _
  split
  · next hi => rw [hi, Function.update_self]
  · next hi => exact Function.update_of_ne hi _ _

theorem State.localVars_declare (i b j c v : ℕ) : (σ.declare v (some (j, c))).localVars i b =
    if i = j ∧ b = c then σ.localVars i b ++ [v] else σ.localVars i b := by
  unfold State.localVars
  rw [State.func_declare]
  by_cases hi : i = j
  · subst hi
    by_cases hb : b = c
    · subst hb
      simp [Func.newLocal]
    · simp [Func.newLocal, hb]
  · simp [hi]

theorem State.nextBlock_declare (p : Place) (i v : ℕ) :
    ((σ.declare v p).func i).func.nextBlock = (σ.func i).func.nextBlock := by
  cases p with
  | none => rfl
  | some q =>
    rw [State.func_declare i q.1 q.2 v]
    split
    · next hi =>
      rw [hi]
      rfl
    · rfl

theorem State.chain_declare {p : Place} (h : ∀ i, (σ.func i).func.ParentLt) (i b v : ℕ) :
    ((σ.declare v p).func i).func.chain b = (σ.func i).func.chain b := by
  cases p with
  | none => rfl
  | some q =>
    rw [State.func_declare i q.1 q.2 v]
    split
    · next hi =>
      rw [hi]
      exact Func.chain_congr (h q.1) fun b _ => Func.update_parent rfl (by rfl) b
    · rfl

/-- `push_back` declares the variable at the place, and nothing else. -/
theorem State.declares_declare (p : Place) (hfresh : ∀ t, v ∉ σ.decls t) :
    Common.Scopes.Declares σ.scopes (σ.declare v p).scopes p.scope v := by
  cases p with
  | none =>
    refine ⟨(List.append_assoc _ _ _).symm, fun t ht => ?_, hfresh⟩
    cases t with
    | file => exact absurd rfl ht
    | function i => rfl
    | block i b => rfl
  | some q =>
    refine ⟨?_, fun t ht => ?_, hfresh⟩
    · show (σ.declare v (some (q.1, q.2))).localVars q.1 q.2 = _
      rw [State.localVars_declare, if_pos ⟨rfl, rfl⟩]
      rfl
    · cases t with
      | file => rfl
      | function i => rfl
      | block i b =>
        show (σ.declare v (some (q.1, q.2))).localVars i b = _
        rw [State.localVars_declare, if_neg fun heq => ht (by rw [heq.1, heq.2]; rfl)]
        rfl

/-- **`push_back`** to the variables of a place. -/
theorem Declared.declare {p : Place} (h : Declared σ) (hs : σ.There p.scope)
    (hv : v < σ.nextVar) (hfresh : ∀ t, v ∉ σ.decls t)
    (hrefs : ∀ w, σ.Refs v w → σ.scopes.Visible p.scope w) :
    Declared (σ.declare v p) ∧ Later σ (σ.declare v p) ∧
      (σ.declare v p).scopes.Visible p.scope v := by
  -- one declaration more, and no block, parent or earlier variable is touched
  have hd := State.declares_declare p hfresh
  have hparent : ∀ i, (σ.func i).func.ParentLt := fun i => (h.building i).wf.parent_lt
  have hl : Later σ (σ.declare v p) := by
    refine ⟨?_, fun u _ => ?_, fun i => (State.nextBlock_declare p i v).ge,
      fun i b _ => State.chain_declare hparent i b v, fun t u hu => hd.mono hu⟩
    · cases p <;> exact Nat.le_refl _
    · cases p <;> rfl
  refine ⟨h.declares hl ?_ ?_ ?_ ?_ ?_ ?_ hd hs hv hrefs, hl, p.scope, State.mem_around_self, ?_⟩
  · intro i
    cases p with
    | none => exact h.building i
    | some q =>
      rw [State.func_declare i q.1 q.2 v]
      split
      · exact (h.building q.1).newLocal q.2 v
      · exact h.building i
  · intro i
    cases p with
    | none => exact h.nested i
    | some q =>
      rw [State.func_declare i q.1 q.2 v]
      split
      · intro b rest hrest
        rw [Func.update_parent (f := (σ.func q.1).func) rfl (by rfl) b]
        exact h.nested q.1 b rest hrest
      · exact h.nested i
  · intro i b hb
    rw [State.nextBlock_declare] at hb
    have hin : σ.localVars i b = [] := h.unborn i b hb
    cases p with
    | none => exact hin
    | some q =>
      rw [State.localVars_declare i b q.1 q.2 v, if_neg ?_]
      · exact hin
      · rintro ⟨rfl, rfl⟩
        exact absurd hs (Nat.not_lt.mpr hb)
  · cases p <;> rfl
  · cases p <;> rfl
  · cases p <;> rfl
  · rw [hd.here]
    exact List.mem_append_right _ (List.mem_singleton_self v)

end VariableSelector

end CLSmith
