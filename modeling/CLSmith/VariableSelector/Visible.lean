import CLSmith.VariableSelector.Declared
/-!
# Declarations before uses

Whatever is selected or made, and wherever: all that a variable is written with is
visible in the block it was selected for. A search is about variables that are visible
there; what is made for a place has initial values that can be written at it, however
deep the search for them goes, and is declared at it or further out.
-/

namespace CLSmith

namespace VariableSelector

open Generate (FlowGraph FlowEvent Func Building)

variable {M : Type} {σ σ' σ'' : State M} {s t : Scope} {i b v w : ℕ}

/-- What is made for a place is declared in it. -/
theorem Made.declare {p : Place} (h : Made σ σ' p.scope v) (hs : σ.There p.scope) :
    Declared (σ'.declare v p) ∧ Later σ (σ'.declare v p) ∧
      (σ'.declare v p).scopes.Visible p.scope v := by
  obtain ⟨hd, hl, hv⟩ := h.declared.declare (h.later.there hs) h.lt h.fresh h.refs
  exact ⟨hd, h.later.trans hl, hv⟩

theorem Made.found {p : Place} (h : Made σ σ' p.scope v) (hs : σ.There p.scope) :
    Found σ (σ'.declare v p) p.scope [v] := by
  obtain ⟨hd, hl, hv⟩ := h.declare hs
  exact ⟨hd, hl, List.forall_mem_singleton.mpr (hd.shown_of_visible hv)⟩

namespace Declared

variable (h : Declared σ)
include h

/-- What is new is not declared. -/
theorem fresh {x : Variable} (t : Scope) : σ.nextVar ∉ (σ.newVariable x).decls t := by
  intro hin
  have hold : (σ.newVariable x).decls t = σ.decls t := by cases t <;> rfl
  rw [hold] at hin
  exact absurd (h.declared t _ hin) (Nat.lt_irrefl _)

/-- **A new variable** with initial values that can be written. -/
theorem made_new {x : Variable} (hs : σ.There s) (hx : ∀ u ∈ x.init, σ.Shown s u)
    (hcol : x.collective = none) (hind : x.indices = []) :
    Made σ (σ.newVariable x) s σ.nextVar := by
  have hparts : ∀ u ∈ x.parts, u < σ.nextVar := by
    intro u hu
    simp only [Variable.parts, hcol, hind, List.append_nil, Option.toList_none] at hu
    exact (hx u hu).1
  obtain ⟨hd, hl⟩ := h.newVariable hparts
  have hnew : (σ.newVariable x).var σ.nextVar = x := Function.update_self ..
  refine ⟨hd, hl, Nat.lt_succ_self _, h.fresh, fun w hw => ?_⟩
  obtain ⟨u, hu, hn⟩ := State.refs_plain (by rwa [hnew]) (by rwa [hnew]) hw
  rw [hnew] at hu
  exact (h.shown_later hl hs (hx u hu)).2 w hn

/-- **An element** of an array that is visible, with indices that can be written: before
it is declared it is written with other names. -/
theorem itemize {a : ℕ} (indices : List ℕ) (hs : σ.There s) (ha : σ.scopes.Visible s a)
    (hix : ∀ u ∈ indices, σ.Shown s u) :
    Made σ (σ.itemize a indices).2 s (σ.itemize a indices).1 ∧
      (σ.itemize a indices).2.Shown s (σ.itemize a indices).1 := by
  obtain ⟨t, ht, hat⟩ := ha
  have halt := h.declared t a hat
  have hparts : ∀ u ∈ (Variable.parts { σ.var a with collective := some a, indices := indices }),
      u < σ.nextVar := by
    intro u hu
    simp only [Variable.parts, Option.toList_some, List.mem_append, List.mem_singleton] at hu
    rcases hu with (hu | hu) | rfl
    · exact h.parts a halt u (by simp [Variable.parts, hu])
    · exact (hix u hu).1
    · exact halt
  obtain ⟨hd, hl⟩ := h.newVariable hparts
  have hnew : (σ.itemize a indices).2.var σ.nextVar =
      { σ.var a with collective := some a, indices := indices } := Function.update_self ..
  have hshown : ∀ w, (σ.itemize a indices).2.Names σ.nextVar w →
      (σ.itemize a indices).2.scopes.Visible s w := by
    intro w hn
    rcases State.names_element (by rw [hnew]) hn with rfl | ⟨u, hu, hn⟩
    · exact Common.Scopes.Visible.mono ⟨t, ht, hat⟩ (h.grows hl) hs
    · rw [hnew] at hu
      exact (h.shown_later hl hs (hix u hu)).2 w hn
  refine ⟨⟨hd, hl, Nat.lt_succ_self _, h.fresh, fun w hw => ?_⟩, Nat.lt_succ_self _, hshown⟩
  rcases hw with ⟨-, hn⟩ | ⟨u, hu, hn⟩
  · exact hshown w hn
  · -- the initial values are those of the array
    have hinit : ((σ.itemize a indices).2.var (σ.itemize a indices).1).init = (σ.var a).init := by
      show ((σ.itemize a indices).2.var σ.nextVar).init = _
      rw [hnew]
    rw [hinit] at hu
    have hn' := (h.names_later hl (h.parts a halt u (by simp [Variable.parts, hu]))).mp hn
    have hvis := h.ordered.visible State.mem_around_self hat (.inr ⟨u, hu, hn'⟩)
    exact (h.visible_inner ht hvis).mono (h.grows hl) hs

theorem found_self (hv : σ.Shown s v) : Found σ σ s [v] :=
  ⟨h, .refl σ, List.forall_mem_singleton.mpr hv⟩

/-- **`choose_ok_var`**, of a variable that can be written. -/
theorem chooseOkVar (hs : σ.There s) (hv : σ.Shown s v) :
    Found σ (σ.chooseOkVar v).2 s [(σ.chooseOkVar v).1] := by
  have hitem : ∀ a, σ.scopes.Visible s a →
      Found σ (σ.itemize a []).2 s [(σ.itemize a []).1] := by
    intro a ha
    obtain ⟨hmade, hshown⟩ := h.itemize [] hs ha fun u hu => absurd hu List.not_mem_nil
    exact ⟨hmade.declared, hmade.later, List.forall_mem_singleton.mpr hshown⟩
  unfold State.chooseOkVar
  split
  · next hplain =>
    split
    · exact hitem v (hv.2 v (.plain hplain))
    · exact h.found_self hv
  · next a ha =>
    split
    · exact hitem a (hv.2 a (.element ha))
    · exact h.found_self hv

/-- **`choose_var`**, from visible variables. -/
theorem chooseVar {vars : List ℕ} {k : ℕ} {r : ℕ × State M} (hs : σ.There s)
    (hvars : ∀ v ∈ vars, σ.scopes.Visible s v) (hr : σ.chooseVar vars k = some r) :
    Found σ r.2 s [r.1] := by
  obtain ⟨v, hv, rfl⟩ := Option.map_eq_some_iff.mp hr
  exact h.chooseOkVar hs (h.shown_of_visible (hvars v (List.mem_of_getElem? hv)))

/-- **The place a local variable goes to** is around the one asked for. -/
theorem enlarge {p q : Place} (hp : σ.There p.scope) (hq : σ.enlarge p = some q) :
    σ.There q.scope ∧ q.scope ∈ σ.around p.scope := by
  cases p with
  | none =>
    obtain rfl := Option.some.inj hq
    exact ⟨trivial, List.mem_singleton_self _⟩
  | some p =>
    obtain ⟨b, hb, rfl⟩ := Option.map_eq_some_iff.mp hq
    obtain ⟨c, hc, hmem, -⟩ := (h.building p.1).expandFrom_spec (Nat.lt_succ_self p.2) hp
    obtain rfl := Option.some.inj (hb.symm.trans hc)
    exact ⟨h.chain_lt hp hmem, List.mem_append_left _ (List.mem_map_of_mem hmem)⟩

/-- **`CreateArrayVariable`**, with initial values that can be written. -/
theorem createArrayVariable {q : Place} (isVector : Bool) (init : List ℕ)
    (hq : σ.There q.scope) (hinit : ∀ u ∈ init, σ.Shown q.scope u) :
    Declared (σ.createArrayVariable q isVector init).2 ∧
      Later σ (σ.createArrayVariable q isVector init).2 ∧
      (σ.createArrayVariable q isVector init).2.scopes.Visible q.scope
        (σ.createArrayVariable q isVector init).1 :=
  (h.made_new (x := { isArray := true, isVector := isVector, init := init }) hq hinit rfl
    rfl).declare hq

end Declared

/-! ## Initial values and new variables -/

/-- `GenerateNewGlobal` and `GenerateNewParentLocal`, by what `create_and_initialize`
makes. -/
theorem Declared.generateWith {p : Place} {make : Place → Option (ℕ × State M)}
    {r : ℕ × State M} (h : Declared σ) (hp : σ.There p.scope)
    (hmake : ∀ q r, σ.There q.scope → make q = some r → Made σ r.2 q.scope r.1)
    (hr : ((σ.enlarge p).bind fun q => (make q).map fun r => (r.1, r.2.declare r.1 q)) = some r) :
    Found σ r.2 p.scope [r.1] := by
  obtain ⟨q, hq, hr⟩ := Option.bind_eq_some_iff.mp hr
  obtain ⟨r', hr', rfl⟩ := Option.map_eq_some_iff.mp hr
  obtain ⟨hthere, haround⟩ := h.enlarge hp hq
  have hfound := (hmake q r' hthere hr').found hthere
  refine hfound.outer ?_
  rwa [hfound.later.around hp]

section Draws

variable (atomic : Bool)

mutual

/-- **`make_init_value`** names what is visible at the place. -/
theorem makeInitValue_found (p : Place) (d : InitDraw) (σ : State M) (h : Declared σ)
    (hp : σ.There p.scope) (r : List ℕ × State M) (hr : makeInitValue atomic p d σ = some r) :
    Found σ r.2 p.scope r.1 := by
  cases d with
  | constant =>
    rw [makeInitValue] at hr
    obtain rfl := Option.some.inj hr
    exact ⟨h, .refl σ, fun v hv => absurd hv List.not_mem_nil⟩
  | of t =>
    rw [makeInitValue] at hr
    obtain ⟨r', hr', hr⟩ := Option.bind_eq_some_iff.mp hr
    obtain ⟨-, hr⟩ := Option.ite_none_left_eq_some.mp hr
    obtain rfl := Option.some.inj hr
    exact findTarget_found p t σ h hp r' hr'
  | again t rest =>
    rw [makeInitValue] at hr
    obtain ⟨r', hr', hr⟩ := Option.bind_eq_some_iff.mp hr
    obtain ⟨-, hr⟩ := Option.ite_none_right_eq_some.mp hr
    have hfound := findTarget_found p t σ h hp r' hr'
    exact (makeInitValue_found p rest r'.2 hfound.declared (hfound.later.there hp) r hr).after
      hfound.later
termination_by structural d

/-- The variable of an initial value is visible at the place. -/
theorem findTarget_found (p : Place) (t : Target) (σ : State M) (h : Declared σ)
    (hp : σ.There p.scope) (r : ℕ × State M) (hr : findTarget atomic p t σ = some r) :
    Found σ r.2 p.scope [r.1] := by
  cases t with
  | visible k =>
    rw [findTarget] at hr
    exact h.chooseVar hp (fun v hv => State.visible_of_initVars hv) hr
  | fresh useLocal d =>
    rw [findTarget] at hr
    have hmake : ∀ q r, σ.There q.scope → createAndInitialize atomic q d σ = some r →
        Made σ r.2 q.scope r.1 :=
      fun q r hq hr => createAndInitialize_made q d σ h hq r hr
    cases useLocal with
    | true => exact h.generateWith hp hmake hr
    | false =>
      refine (h.generateWith (p := none) trivial hmake hr).outer ?_
      cases p <;> simp [Place.scope, State.around]
termination_by structural t

/-- **`create_and_initialize`** makes a variable whose initial values can be written
where it goes. -/
theorem createAndInitialize_made (q : Place) (d : VarDraw) (σ : State M) (h : Declared σ)
    (hq : σ.There q.scope) (r : ℕ × State M) (hr : createAndInitialize atomic q d σ = some r) :
    Made σ r.2 q.scope r.1 := by
  cases d with
  | plain init =>
    rw [createAndInitialize] at hr
    obtain ⟨r', hr', rfl⟩ := Option.map_eq_some_iff.mp hr
    have hfound := makeInitValue_found q init σ h hq r' hr'
    have hmade := hfound.declared.made_new (x := { init := r'.1 }) (hfound.later.there hq)
      hfound.shown rfl rfl
    exact ⟨hmade.declared, hfound.later.trans hmade.later, hmade.lt, hmade.fresh, hmade.refs⟩
  | array isVector inits =>
    rw [createAndInitialize] at hr
    obtain ⟨r', hr', rfl⟩ := Option.map_eq_some_iff.mp hr
    have hfound := makeInitValues_found q inits σ h hq r' hr'
    have hthere := hfound.later.there hq
    obtain ⟨hd, hl, hvis⟩ := hfound.declared.createArrayVariable isVector r'.1 hthere
      hfound.shown
    obtain ⟨hmade, -⟩ := hd.itemize [] (hl.there hthere) hvis
      fun u hu => absurd hu List.not_mem_nil
    exact ⟨hmade.declared, (hfound.later.trans hl).trans hmade.later, hmade.lt, hmade.fresh,
      hmade.refs⟩
termination_by structural d

theorem makeInitValues_found (p : Place) (ds : List InitDraw) (σ : State M) (h : Declared σ)
    (hp : σ.There p.scope) (r : List ℕ × State M) (hr : makeInitValues atomic p ds σ = some r) :
    Found σ r.2 p.scope r.1 := by
  cases ds with
  | nil =>
    rw [makeInitValues] at hr
    obtain rfl := Option.some.inj hr
    exact ⟨h, .refl σ, fun v hv => absurd hv List.not_mem_nil⟩
  | cons d ds =>
    rw [makeInitValues] at hr
    obtain ⟨r', hr', hr⟩ := Option.bind_eq_some_iff.mp hr
    obtain ⟨r'', hr'', rfl⟩ := Option.map_eq_some_iff.mp hr
    have hfound := makeInitValue_found p d σ h hp r' hr'
    have hthere := hfound.later.there hp
    have hrest := makeInitValues_found p ds r'.2 hfound.declared hthere r'' hr''
    refine ⟨hrest.declared, hfound.later.trans hrest.later, fun v hv => ?_⟩
    rcases List.mem_append.mp hv with hv | hv
    · exact hfound.declared.shown_later hrest.later hthere (hfound.shown v hv)
    · exact hrest.shown v hv
termination_by structural ds

end

/-- **`GenerateNewGlobal`** and **`GenerateNewParentLocal`**. -/
theorem generateNew_found {p : Place} {d : VarDraw} {r : ℕ × State M} (h : Declared σ)
    (hp : σ.There p.scope) (hr : generateNew atomic p d σ = some r) :
    Found σ r.2 p.scope [r.1] :=
  h.generateWith hp (fun q r hq hr => createAndInitialize_made atomic q d σ h hq r hr) hr

end Draws

/-! ## What happens to the blocks -/

/-- The blocks of a function stay where they are, with their variables. -/
structure Keeps (f f' : Func M) : Prop where
  nextBlock_le : f.nextBlock ≤ f'.nextBlock
  parent : ∀ b < f.nextBlock, (f'.block b).parent = (f.block b).parent
  localVars : ∀ b, (f'.block b).localVars = (f.block b).localVars
  nested : Nested f'

section Flow

variable {cg : CGOptions} {f f' : Func M} {τ τ' : FlowGraph M}

/-- The open blocks are around the current one. -/
theorem Nested.mem_chain {stack : List ℕ} {c : ℕ} (h : Nested f) (hp : f.ParentLt)
    (hstack : stack <:+ f.stack) (hb : stack.head? = some b) (hc : c ∈ stack) :
    c ∈ f.chain b := by
  induction stack generalizing b with
  | nil => cases hc
  | cons d rest ih =>
    obtain rfl := Option.some.inj hb
    rcases List.mem_cons.mp hc with rfl | hc
    · exact Func.mem_chain_self
    · have hpar := h d rest hstack
      cases hhead : rest.head? with
      | none =>
        rw [List.head?_eq_none_iff.mp hhead] at hc
        cases hc
      | some p =>
        rw [hhead] at hpar
        rw [Func.chain_of_parent hp hpar]
        exact List.mem_cons_of_mem _ (ih ((List.suffix_cons d rest).trans hstack) hhead hc)

theorem Nested.same (h : Nested f) (hstack : f'.stack <:+ f.stack)
    (hparent : ∀ b, (f'.block b).parent = (f.block b).parent) : Nested f' := by
  intro b rest hrest
  rw [hparent]
  exact h b rest (hrest.trans hstack)

theorem keeps_openBlock {role : Generate.Role} {inArrayLoop : Bool} (h : Building τ)
    (hn : Nested τ.func) (hunborn : ∀ b, τ.func.nextBlock ≤ b → (τ.func.block b).localVars = []) :
    Keeps τ.func (τ.func.openBlock role inArrayLoop) := by
  have hold : ∀ b, b ≠ τ.func.nextBlock →
      (τ.func.openBlock role inArrayLoop).block b = τ.func.block b :=
    fun b hb => Function.update_of_ne hb _ _
  have hnew : (τ.func.openBlock role inArrayLoop).block τ.func.nextBlock =
      ⟨τ.func.currentBlock, role, inArrayLoop, [], []⟩ := Function.update_self ..
  refine ⟨Nat.le_succ _, fun b hb => by rw [hold b (by omega)], fun b => ?_, ?_⟩
  · by_cases hb : b = τ.func.nextBlock
    · rw [hb, hnew, hunborn _ (Nat.le_refl _)]
    · rw [hold b hb]
  · intro b rest hrest
    rcases List.suffix_cons_iff.mp hrest with heq | hrest
    · obtain ⟨rfl, rfl⟩ := List.cons.inj heq
      rw [hnew]
      rfl
    · have hb := h.stack_lt (hrest.subset List.mem_cons_self)
      rw [hold b (by omega)]
      exact hn b rest hrest

theorem keeps_newStm {k : Generate.Kind M} {calls stms : List ℕ} (hn : Nested f) (b : ℕ) :
    Keeps f (f.newStm b k calls stms) where
  nextBlock_le := Nat.le_refl _
  parent c _ := Func.update_parent rfl (by rfl) c
  localVars c := by
    by_cases hc : c = b
    · rw [hc]
      simp [Func.newStm, Func.setStms]
    · simp [Func.newStm, Func.setStms, hc]
  nested := hn.same (List.suffix_refl _) fun c => Func.update_parent rfl (by rfl) c

theorem keeps_refl (hn : Nested f) : Keeps f f :=
  ⟨Nat.le_refl _, fun _ _ => rfl, fun _ => rfl, hn⟩

/-- **What happens to a function besides new variables** leaves its blocks where they
are. -/
theorem keeps_of_step {e : FlowEvent M} (h : Building τ) (hn : Nested τ.func)
    (hunborn : ∀ b, τ.func.nextBlock ≤ b → (τ.func.block b).localVars = [])
    (he : ∀ b v, e ≠ .newLocal b v) (hstep : τ.step cg e = some τ') :
    Keeps τ.func τ'.func := by
  cases e with
  | openBlock role inArrayLoop =>
    obtain ⟨-, hτ⟩ := Option.ite_none_right_eq_some.mp hstep
    cases hτ
    exact keeps_openBlock h hn hunborn
  | closeBlock =>
    obtain ⟨-, hτ⟩ := Option.ite_none_right_eq_some.mp hstep
    cases hτ
    exact ⟨Nat.le_refl _, fun _ _ => rfl, fun _ => rfl, hn.same (List.tail_suffix _) fun _ => rfl⟩
  | newLocal b v => exact absurd rfl (he b v)
  | append kind calls =>
    simp only [FlowGraph.step] at hstep
    split at hstep
    · cases hstep
    · obtain ⟨-, hτ⟩ := Option.ite_none_right_eq_some.mp hstep
      cases hτ
      exact keeps_newStm hn _
  | goto draws condVar ok =>
    obtain ⟨-, hτ⟩ := Option.ite_none_right_eq_some.mp hstep
    split at hτ
    · cases hτ
    · next b hb =>
      split at hτ
      · next j test hj =>
        rcases h.makeGoto_cases hb hj hτ with rfl | ⟨dest, stms, back, rfl, -⟩
        · exact keeps_refl hn
        · exact keeps_newStm hn _
      · cases hτ
        exact keeps_refl hn
  | selfEdge =>
    simp only [FlowGraph.step] at hstep
    split at hstep
    · cases hstep
    · obtain ⟨-, hτ⟩ := Option.ite_none_right_eq_some.mp hstep
      cases hτ
      exact keeps_refl hn
  | removeStmt b s =>
    obtain ⟨⟨hb, hs⟩, hrun⟩ := Option.ite_none_right_eq_some.mp hstep
    -- a removal takes statements out of their blocks, and no block away
    obtain ⟨-, hsh⟩ := h.removeStmt hb hs hrun
    refine ⟨hsh.nextBlock.ge, fun b _ => hsh.parent b, fun b => by rw [hsh.block], ?_⟩
    exact hn.same (hsh.stack ▸ List.suffix_refl _) hsh.parent

end Flow

namespace Declared

variable {cg : CGOptions} (h : Declared σ)
include h

/-- Something happens to the blocks of a function. -/
theorem flow {e : FlowEvent M} {g : FlowGraph M} (he : ∀ b v, e ≠ .newLocal b v)
    (hstep : (σ.func i).step cg e = some g) :
    Declared { σ with func := Function.update σ.func i g } := by
  have hkeeps := keeps_of_step (h.building i) (h.nested i) (h.unborn i) he hstep
  have hbuild : Building g := (h.building i).moves (Generate.FlowGraph.moves_of_step hstep)
  -- only the blocks of the one function changed, and no declaration did
  generalize hσ : ({ σ with func := Function.update σ.func i g } : State M) = σ'
  have hself : σ'.func i = g := by
    rw [← hσ]
    exact Function.update_self ..
  have hother : ∀ j, j ≠ i → σ'.func j = σ.func j := by
    intro j hj
    rw [← hσ]
    exact Function.update_of_ne hj _ _
  have hlocals : ∀ j b, σ'.localVars j b = σ.localVars j b := by
    intro j b
    unfold State.localVars
    by_cases hj : j = i
    · rw [hj, hself]
      exact hkeeps.localVars b
    · rw [hother j hj]
  have hblocks : ∀ j, (σ.func j).func.nextBlock ≤ (σ'.func j).func.nextBlock := by
    intro j
    by_cases hj : j = i
    · rw [hj, hself]
      exact hkeeps.nextBlock_le
    · rw [hother j hj]
  have hdecls : ∀ s, σ'.decls s = σ.decls s := by
    intro s
    cases s with
    | file =>
      rw [← hσ]
      rfl
    | function j =>
      rw [← hσ]
      rfl
    | block j b => exact hlocals j b
  have hnext : σ'.nextVar = σ.nextVar := by rw [← hσ]
  have hvar : σ'.var = σ.var := by rw [← hσ]
  have hl : Later σ σ' := by
    refine ⟨hnext.ge, fun v _ => by rw [hvar], hblocks, fun j b hb => ?_,
      fun s v hv => by rwa [hdecls]⟩
    by_cases hj : j = i
    · subst hj
      rw [hself]
      exact Func.chain_congr (h.building j).wf.parent_lt
        fun c hc => hkeeps.parent c (lt_of_le_of_lt hc hb)
    · rw [hother j hj]
  -- the function itself has the invariants of its generation; the rest is as it was
  refine ⟨fun j => ?_, fun j => ?_, fun j b hb => ?_, ?_, ?_, ?_, h.unique.same hdecls, ?_⟩
  · by_cases hj : j = i
    · rwa [hj, hself]
    · rw [hother j hj]
      exact h.building j
  · by_cases hj : j = i
    · rw [hj, hself]
      exact hkeeps.nested
    · rw [hother j hj]
      exact h.nested j
  · rw [hlocals]
    exact h.unborn j b ((hblocks j).trans hb)
  · rw [hvar, hnext]
    exact h.parts
  · intro s v hv
    rw [hdecls] at hv
    rw [hnext]
    exact h.declared s v hv
  · exact h.ordered.same (h.grows hl) (fun s => h.there_of_decls) hdecls
  · intro e he
    rw [← hσ] at he
    obtain ⟨hs, hv⟩ := h.used e he
    exact ⟨hl.there hs, h.shown_later hl hs hv⟩

/-- **`GenerateParameterVariable`**. -/
theorem parameter (i : ℕ) :
    Declared { σ.newVariable {} with
      param := Function.update σ.param i (σ.param i ++ [σ.nextVar]) } := by
  have hmade := h.made_new (s := .function i) (x := {}) trivial
    (fun u hu => absurd hu List.not_mem_nil) rfl rfl
  have hd : Common.Scopes.Declares (σ.newVariable {}).scopes
      (State.scopes { σ.newVariable {} with
        param := Function.update σ.param i (σ.param i ++ [σ.nextVar]) }) (.function i)
      σ.nextVar := by
    refine ⟨Function.update_self .., fun t ht => ?_, h.fresh⟩
    cases t with
    | file => rfl
    | function j => exact Function.update_of_ne (fun hj => ht (by rw [hj])) _ _
    | block j b => rfl
  exact hmade.declared.declares ⟨Nat.le_refl _, fun _ _ => rfl, fun _ => Nat.le_refl _,
    fun _ _ _ => rfl, fun t u hu => hd.mono hu⟩ h.building h.nested h.unborn rfl rfl rfl hd
    trivial hmade.lt hmade.refs

/-! ## Selections -/

/-- Variables are used where they can be written. -/
theorem uses {vs : List ℕ} (hb : b < (σ.func i).func.nextBlock)
    (hv : ∀ v ∈ vs, σ.Shown (.block i b) v) : Declared (σ.uses i b vs) := by
  have hdecls : ∀ s, (σ.uses i b vs).decls s = σ.decls s := by
    intro s
    cases s <;> rfl
  have hl : Later σ (σ.uses i b vs) := ⟨Nat.le_refl _, fun _ _ => rfl, fun _ => Nat.le_refl _,
    fun _ _ _ => rfl, fun s u hu => by rwa [hdecls]⟩
  refine ⟨h.building, h.nested, h.unborn, h.parts, fun s u hu => h.declared s u (by rwa [← hdecls]),
    h.ordered.same (h.grows hl) (fun s => h.there_of_decls) hdecls, h.unique.same hdecls, ?_⟩
  intro e he
  rcases List.mem_append.mp he with he | he
  · obtain ⟨hs, hu⟩ := h.used e he
    exact ⟨hl.there hs, h.shown_later hl hs hu⟩
  · obtain ⟨v, hmem, rfl⟩ := List.mem_map.mp he
    exact ⟨hb, h.shown_later hl hb (hv v hmem)⟩

end Declared

theorem Found.uses {vs : List ℕ} (h : Found σ σ' (.block i b) vs)
    (hb : b < (σ.func i).func.nextBlock) : Declared (σ'.uses i b vs) :=
  h.declared.uses (h.later.there (s := .block i b) hb) h.shown

namespace Declared

variable {cg : CGOptions} (h : Declared σ)
include h

theorem currentBlock_lt (hb : (σ.func i).func.currentBlock = some b) :
    b < (σ.func i).func.nextBlock := (h.building i).stack_lt (List.mem_of_mem_head? hb)

/-- A block of the stack is there, and around the current one. -/
theorem stackBlock {index : ℕ} {p : Place} (hb : (σ.func i).func.currentBlock = some b)
    (hp : σ.stackBlock i index = some p) : σ.There p.scope ∧ p.scope ∈ σ.around (.block i b) := by
  obtain ⟨c, hc, rfl⟩ := Option.map_eq_some_iff.mp hp
  have hmem := List.mem_of_getElem? hc
  have hchain := (h.nested i).mem_chain (h.building i).wf.parent_lt (List.suffix_refl _) hb hmem
  exact ⟨(h.building i).stack_lt hmem, List.mem_append_left _ (List.mem_map_of_mem hchain)⟩

/-- **`select`** finds a variable that can be written in the block. -/
theorem select {atomic : Bool} {sel : Selection} {r : ℕ × State M}
    (hb : (σ.func i).func.currentBlock = some b) (hr : σ.select atomic i b sel = some r) :
    Found σ r.2 (.block i b) [r.1] := by
  have hs : σ.There (.block i b) := h.currentBlock_lt hb
  -- what is chosen is visible already, or made for the place it is then found in
  cases sel with
  | global k => exact h.chooseVar hs (fun v hv => State.visible_global hv) hr
  | parentLocal index k =>
    obtain ⟨c, hc, hr⟩ := Option.bind_eq_some_iff.mp hr
    have hchain := (h.nested i).mem_chain (h.building i).wf.parent_lt (List.suffix_refl _) hb
      (List.mem_of_getElem? hc)
    exact h.chooseVar hs (fun v hv => State.visible_local hchain hv) hr
  | parentParam k => exact h.chooseVar hs (fun v hv => State.visible_param hv) hr
  | visible k =>
    refine h.chooseVar hs (fun v hv => ?_) hr
    rcases List.mem_append.mp hv with hv | hv
    · exact State.visible_of_findAllVisibleVars (p := some (i, b)) hv
    · exact State.visible_param hv
  | array k =>
    obtain ⟨v, hv, hr⟩ := Option.bind_eq_some_iff.mp hr
    obtain ⟨-, hr⟩ := Option.ite_none_right_eq_some.mp hr
    obtain rfl := Option.some.inj hr
    exact h.found_self (h.shown_of_visible (State.visible_of_findAllVisibleVars
      (p := some (i, b)) (List.mem_of_getElem? hv)))
  | newGlobal d =>
    refine (generateNew_found atomic (p := none) h trivial hr).outer ?_
    simp [Place.scope, State.around]
  | newLocal index d =>
    obtain ⟨p, hp, hr⟩ := Option.bind_eq_some_iff.mp hr
    obtain ⟨hthere, haround⟩ := h.stackBlock hb hp
    have hfound := generateNew_found atomic h hthere hr
    refine hfound.outer ?_
    rwa [hfound.later.around hs]
  | newArray index isVector =>
    obtain ⟨q, hq, rfl⟩ := Option.map_eq_some_iff.mp hr
    obtain ⟨hthere, haround⟩ : σ.There q.scope ∧ q.scope ∈ σ.around (.block i b) := by
      cases index with
      | none =>
        obtain rfl := Option.some.inj hq
        exact ⟨trivial, by simp [Place.scope, State.around]⟩
      | some k =>
        obtain ⟨p, hp, hq⟩ := Option.bind_eq_some_iff.mp hq
        obtain ⟨hpthere, hparound⟩ := h.stackBlock hb hp
        obtain ⟨hqthere, hqaround⟩ := h.enlarge hpthere hq
        exact ⟨hqthere, h.around_trans hparound hqaround⟩
    obtain ⟨hd, hl, hvis⟩ := h.createArrayVariable isVector [] hthere
      fun u hu => absurd hu List.not_mem_nil
    refine ⟨hd, hl, List.forall_mem_singleton.mpr (hd.shown_of_visible ?_)⟩
    refine hd.visible_inner ?_ hvis
    rwa [hl.around hs]

/-- A variable used around a block can be written in it. -/
theorem shown_of_usedAround (hu : σ.usedAround i b v = true) : σ.Shown (.block i b) v := by
  obtain ⟨e, he, hmem⟩ := List.any_eq_true.mp hu
  obtain ⟨rfl, hc, rfl⟩ := of_decide_eq_true hmem
  obtain ⟨-, hlt, hvis⟩ := h.used e he
  exact ⟨hlt, fun w hw => h.visible_inner (List.mem_append_left _ (List.mem_map_of_mem hc))
    (hvis w hw)⟩

/-- A block around the current one, or none. -/
theorem randomParentBlock {index : Option ℕ} {p : Place} (hb : b < (σ.func i).func.nextBlock)
    (hp : σ.randomParentBlock i b index = some p) :
    σ.There p.scope ∧ p.scope ∈ σ.around (.block i b) := by
  cases index with
  | none =>
    obtain rfl := Option.some.inj hp
    exact ⟨trivial, by simp [Place.scope, State.around]⟩
  | some k =>
    obtain ⟨c, hc, rfl⟩ := Option.map_eq_some_iff.mp hp
    have hmem := List.mem_of_getElem? hc
    exact ⟨h.chain_lt hb hmem, List.mem_append_left _ (List.mem_map_of_mem hmem)⟩

theorem chooseOkVars {vs : List ℕ} (hs : σ.There s) (hvs : ∀ v ∈ vs, σ.Shown s v) :
    Found σ (State.chooseOkVars vs σ).2 s (State.chooseOkVars vs σ).1 := by
  induction vs generalizing σ with
  | nil => exact ⟨h, .refl σ, fun v hv => absurd hv List.not_mem_nil⟩
  | cons v vs ih =>
    have hfound := h.chooseOkVar hs (hvs v List.mem_cons_self)
    have hthere := hfound.later.there hs
    have hrest := ih hfound.declared hthere fun u hu =>
      h.shown_later hfound.later hs (hvs u (List.mem_cons_of_mem _ hu))
    refine ⟨hrest.declared, hfound.later.trans hrest.later, fun u hu => ?_⟩
    rcases List.mem_cons.mp hu with rfl | hu
    · exact hfound.declared.shown_later hrest.later hthere
        (hfound.shown _ (List.mem_singleton_self _))
    · exact hrest.shown u hu

/-- An element with indices that can be written is declared in the block, and used. -/
theorem indexed {a : ℕ} {indices : List ℕ} (hb : b < (σ.func i).func.nextBlock)
    (ha : σ.scopes.Visible (.block i b) a) (hix : ∀ u ∈ indices, σ.Shown (.block i b) u) :
    Declared (σ.indexed i b a indices) := by
  obtain ⟨hmade, -⟩ := h.itemize (s := .block i b) indices hb ha hix
  exact (hmade.found (p := some (i, b)) hb).uses hb

/-- **Every event keeps the declarations in order.** -/
theorem step {e : Event M} (hstep : VariableSelector.step cg σ e = some σ') : Declared σ' := by
  cases e with
  | flow i e =>
    by_cases he : ∃ b v, e = .newLocal b v
    -- variables are made by the events of the selector only
    · obtain ⟨b, v, rfl⟩ := he
      cases hstep
    · have hne : ∀ b v, e ≠ .newLocal b v := fun b v heq => he ⟨b, v, heq⟩
      have hflow : ((σ.func i).step cg e).map
          (fun g => { σ with func := Function.update σ.func i g }) = some σ' := by
        cases e with
        | newLocal b v => exact absurd rfl (hne b v)
        | _ => exact hstep
      obtain ⟨g, hg, rfl⟩ := Option.map_eq_some_iff.mp hflow
      exact h.flow hne hg
  | parameter i =>
    obtain ⟨-, hσ⟩ := Option.ite_none_right_eq_some.mp hstep
    obtain rfl := Option.some.inj hσ
    exact h.parameter i
  | select i atomic sel =>
    obtain ⟨b, hb, hstep⟩ := Option.bind_eq_some_iff.mp hstep
    obtain ⟨r, hr, rfl⟩ := Option.map_eq_some_iff.mp hstep
    have hfound := h.select hb hr
    exact hfound.uses (h.currentBlock_lt hb)
  | condition i c k =>
    obtain ⟨hc, hstep⟩ := Option.ite_none_right_eq_some.mp hstep
    obtain ⟨r, hr, rfl⟩ := Option.map_eq_some_iff.mp hstep
    have hfound : Found σ r.2 (.block i c) [r.1] := by
      refine h.chooseVar (s := .block i c) hc (fun v hv => ?_) hr
      rcases List.mem_append.mp hv with hv | hv
      · exact State.visible_of_findAllVisibleVars (p := some (i, c)) hv
      · exact State.visible_param hv
    exact hfound.uses hc
  | itemizeArray i a ivs =>
    obtain ⟨b, hb, hstep⟩ := Option.bind_eq_some_iff.mp hstep
    obtain ⟨⟨ha, -, -, hivs⟩, hstep⟩ := Option.ite_none_right_eq_some.mp hstep
    obtain rfl := Option.some.inj hstep
    have hs := h.currentBlock_lt hb
    have hfound := h.chooseOkVars (s := .block i b) hs fun v hv =>
      h.shown_of_usedAround (List.all_eq_true.mp hivs v hv)
    refine hfound.declared.indexed (hfound.later.there (s := .block i b) hs) ?_ hfound.shown
    exact (State.visible_of_findAllVisibleVars (p := some (i, b)) ha).mono (h.grows hfound.later)
      hs
  | comm i vars =>
    obtain ⟨b, hb, hstep⟩ := Option.bind_eq_some_iff.mp hstep
    split at hstep
    · next permutations _ _ tid hbuffers =>
      obtain ⟨hvars, hstep⟩ := Option.ite_none_right_eq_some.mp hstep
      obtain rfl := Option.some.inj hstep
      have hbuffer : ∀ v ∈ σ.buffers, σ.scopes.Visible (.block i b) v := fun v hv =>
        ⟨.file, List.mem_append_right _ (by simp), List.mem_append_left _ hv⟩
      refine h.indexed (h.currentBlock_lt hb) (hbuffer _ (by simp [hbuffers])) fun u hu => ?_
      rcases List.mem_append.mp hu with hu | hu
      · exact h.shown_of_usedAround (List.all_eq_true.mp hvars u hu)
      · rw [List.mem_singleton.mp hu]
        exact h.shown_of_visible (hbuffer _ (by simp [hbuffers]))
    · cases hstep
  | arrayInit i atomic index d =>
    obtain ⟨b, hb, hstep⟩ := Option.bind_eq_some_iff.mp hstep
    obtain ⟨p, hp, hstep⟩ := Option.bind_eq_some_iff.mp hstep
    obtain ⟨r, hr, rfl⟩ := Option.map_eq_some_iff.mp hstep
    have hs := h.currentBlock_lt hb
    obtain ⟨hthere, haround⟩ := h.randomParentBlock hs hp
    have hfound := makeInitValue_found atomic p d σ h hthere r hr
    -- found for the block the array is declared in, which is around the one it is used in
    have hinner : Found σ r.2 (.block i b) r.1 := by
      refine hfound.outer ?_
      rwa [hfound.later.around (s := .block i b) hs]
    exact hinner.uses hs

end Declared

/-! ## Runs -/

/-- A pointer to a local variable that is made for it, and `permutations` at an element
of `g_comm_values` and `tid`. -/
def pointerEvents : List (Event Unit) :=
  [.parameter 0, .flow 0 (.openBlock .body false),
    .select 0 false (.newLocal 0 (.plain (.of (.fresh true (.plain .constant))))),
    .select 0 false (.global 0), .comm 0 [6], .select 0 false (.parentParam 0)]

end VariableSelector

end CLSmith
