import CLSmith.Goto.Deletion
/-!
# A body that needs a return has one

`post_creation_analysis` of the body of a function may delete tails and append
a return. Control never comes to the end of the body that is left.
-/

namespace CLSmith

namespace Generate

open EMI

variable {M : Type}

variable {f f' : Func M} {σ σ' : FlowGraph M} {R : ℕ → Prop} {r b c d s t : ℕ}
variable {stms stms' Z : List ℕ}

/-! ## Fewer statements, fewer behind a return -/

theorem Shrunk.isReturn (h : Shrunk f f') : f'.isReturn = f.isReturn := by
  funext s
  unfold Func.isReturn
  rw [h.stm]

/-- What is not behind a return is not so with fewer statements. -/
theorem front_sublist (hret : f'.isReturn = f.isReturn) (h : stms'.Sublist stms)
    (hnodup : stms.Nodup) (hs : s ∈ front f stms) (hs' : s ∈ stms') : s ∈ front f' stms' := by
  induction h with
  | slnil => cases hs'
  | @cons l l' x hsub ih =>
    obtain ⟨hx, hnodup⟩ := List.nodup_cons.mp hnodup
    have hne : s ≠ x := by
      rintro rfl
      exact hx (hsub.subset hs')
    rw [front] at hs
    split at hs
    · exact absurd (List.mem_singleton.mp hs) hne
    · exact ih hnodup ((List.mem_cons.mp hs).resolve_left hne) hs'
  | @cons_cons l l' x hsub ih =>
    obtain ⟨-, hnodup⟩ := List.nodup_cons.mp hnodup
    rw [front] at hs ⊢
    rw [hret]
    split at hs
    · next hx =>
      rw [if_pos hx]
      exact hs
    · next hx =>
      rw [if_neg hx]
      rcases List.mem_cons.mp hs' with rfl | hs'
      · exact List.mem_cons_self
      · rcases List.mem_cons.mp hs with rfl | hs
        · exact List.mem_cons_self
        · exact List.mem_cons_of_mem _ (ih hnodup hs hs')

/-- A live block that is still there is live. -/
theorem Live.shrunk (hT : IsTree f) (h : Shrunk f f') (hroot : ∀ s, ¬ Owns f s r)
    (hL : Live f r c) (hW : Within f' (· = r) c) : Live f' r c := by
  induction hL with
  | self => exact .self
  | @nested c d s hc hs hd ih =>
    have ho := owns_of_mem hT (front_subset s hs) hd
    cases hW with
    | root heq =>
      subst heq
      exact absurd ho (hroot s)
    | @nested c' _ s' hc' hs' hd' =>
      have hs'' := (h.stms c').subset hs'
      rw [h.stm] at hd'
      obtain rfl := hT.owner s s' d ho (owns_of_mem hT hs'' hd')
      obtain rfl : c = c' := (hT.mem c s (front_subset s hs)).symm.trans (hT.mem c' s hs'')
      exact (ih hc').nested (front_sublist h.isReturn (h.stms c) (hT.nodup c) hs hs')
        (by rwa [h.stm])

/-- **Gotos lead to live statements after a removal**, when the goto of every edge
that is gone is gone. -/
theorem GotosLive.shrunk (hg : GotosLive σ.func r) (h : Tracked σ (· = r) [])
    (hsh : Shrunk σ.func σ'.func) (h' : Tracked σ' (· = r) []) : GotosLive σ'.func r := by
  intro c hW s hs test dest hk
  have hT := h.forest.toIsTree
  have hpar := h'.forest.mem c s hs
  -- the edge of the goto leads to what is there
  obtain ⟨back, he⟩ := (h'.goto s ⟨by rwa [hpar], by rwa [hpar]⟩ test dest hk).resolve_right
    fun ⟨_, hz, _⟩ => nomatch hz
  obtain ⟨hdest, hWd⟩ := (h'.edge _ he).2.1
  rw [hsh.stm] at hk hWd
  rw [hsh.stm] at hdest
  obtain ⟨hlive, hfront⟩ := hg c (hsh.within hW) s ((hsh.stms c).subset hs) test dest hk
  unfold LiveIn
  rw [hsh.stm]
  exact ⟨hlive.shrunk hT hsh (fun s => h.forest.root_owner r s rfl) hWd,
    front_sublist hsh.isReturn (hsh.stms _) (hT.nodup _) hfront hdest⟩

theorem Tracked.continuesRecorded (h : Tracked σ R []) : ContinuesRecorded σ R := by
  intro c hW s hs test l hk hl
  have hpar := h.forest.mem c s hs
  exact (h.cont s ⟨by rwa [hpar], by rwa [hpar]⟩ test l hk hl).resolve_right
    fun ⟨_, hz, _⟩ => nomatch hz

/-! ## Edges to the body of a function -/

/-- Only loop bodies have `break_stms`. -/
theorem Tracked.breakStms_nil (h : Tracked σ R Z) (hrole : (σ.func.block b).role ≠ .loop) :
    σ.breakStms b = [] := by
  refine List.eq_nil_iff_forall_not_mem.mpr fun s hs => hrole ?_
  have hl := (h.break_stms b s hs).2.1
  simpa using List.find?_some hl

/-- Only from its own tail, and only to a loop body, leads an edge to the head of
a block. -/
theorem Tracked.backEdges (h : Tracked σ R Z) (hrole : (σ.func.block b).role ≠ .loop) :
    ∀ e ∈ σ.backEdges b, e.src = .block b := by
  intro e he
  unfold FlowGraph.backEdges at he
  rw [List.mem_filter] at he
  obtain ⟨he, hdest⟩ := he
  simp only [Bool.and_eq_true, decide_eq_true_eq] at hdest
  obtain ⟨-, -, hok⟩ := h.edge e he
  unfold EdgeOk at hok
  cases hsrc : e.src with
  | block d =>
    rw [hsrc] at hok
    dsimp only at hok
    rw [hok] at hdest
    exact hdest.1.1
  | stm s =>
    rw [hsrc] at hok
    dsimp only at hok
    split at hok
    · obtain ⟨l, hl, hd⟩ := hok
      rw [hdest.1.1] at hd
      cases hd
      exact absurd (by simpa using List.find?_some hl) hrole
    · obtain ⟨l, s', -, -, hd⟩ := hok
      rw [hdest.1.1] at hd
      cases hd
    · rw [hdest.1.1] at hok
      cases hok
    · exact absurd hok id

/-! ## A return is appended -/

/-- `f'` is `f` with a new return statement at the end of the block `r`. -/
structure Appended (f f' : Func M) (r : ℕ) : Prop where
  fresh : ∀ c, ∀ s ∈ (f.block c).stms, s < f.nextStm
  new : f'.stm f.nextStm = ⟨r, .ret, []⟩
  stm : ∀ s, s < f.nextStm → f'.stm s = f.stm s
  parent : ∀ b, (f'.block b).parent = (f.block b).parent
  role : ∀ b, (f'.block b).role = (f.block b).role
  stms : (f'.block r).stms = (f.block r).stms ++ [f.nextStm]
  others : ∀ b, b ≠ r → (f'.block b).stms = (f.block b).stms

theorem appendReturn_appended (hfresh : ∀ c, ∀ s ∈ (σ.func.block c).stms, s < σ.func.nextStm) :
    Appended σ.func (σ.appendReturn r).func r where
  fresh := hfresh
  new := by simp [FlowGraph.appendReturn, Func.newStm]
  stm s hs := by simp [FlowGraph.appendReturn, Func.newStm, Nat.ne_of_lt hs]
  parent b := by
    by_cases hb : b = r
    · simp [FlowGraph.appendReturn, Func.newStm, Func.setStms, hb]
    · simp [FlowGraph.appendReturn, Func.newStm, Func.setStms, hb]
  role b := by
    by_cases hb : b = r
    · simp [FlowGraph.appendReturn, Func.newStm, Func.setStms, hb]
    · simp [FlowGraph.appendReturn, Func.newStm, Func.setStms, hb]
  stms := by simp [FlowGraph.appendReturn, Func.newStm, Func.setStms, FlowGraph.stms]
  others b hb := by simp [FlowGraph.appendReturn, Func.newStm, Func.setStms, hb]

theorem Appended.mem (h : Appended f f' r) (hs : s ∈ (f'.block c).stms) :
    (s ∈ (f.block c).stms ∧ f'.stm s = f.stm s) ∨ (c = r ∧ s = f.nextStm) := by
  have hold : s ∈ (f.block c).stms → s ∈ (f.block c).stms ∧ f'.stm s = f.stm s :=
    fun hs => ⟨hs, h.stm s (h.fresh c s hs)⟩
  by_cases hc : c = r
  · subst hc
    rw [h.stms] at hs
    exact (List.mem_append.mp hs).imp hold fun hn => ⟨rfl, List.mem_singleton.mp hn⟩
  · rw [h.others c hc] at hs
    exact .inl (hold hs)

/-- Blocks belong to the old statements. -/
theorem Appended.old (h : Appended f f' r) (hs : s ∈ (f'.block c).stms)
    (hd : d ∈ (f'.stm s).kind.blocks) : s ∈ (f.block c).stms ∧ f'.stm s = f.stm s := by
  refine (h.mem hs).resolve_right ?_
  rintro ⟨-, rfl⟩
  rw [h.new] at hd
  cases hd

theorem Appended.owns (h : Appended f f' r) (ho : Owns f' s d) :
    Owns f s d ∧ f'.stm s = f.stm s := by
  obtain ⟨hs, heq⟩ := h.old ho.1 ho.2
  unfold Owns at ho ⊢
  rw [heq] at ho hs
  exact ⟨⟨hs, ho.2⟩, heq⟩

theorem Appended.isTree (h : Appended f f' r) (hT : IsTree f) : IsTree f' where
  parent_lt b p hp := hT.parent_lt b p (by rwa [← h.parent])
  mem c s hs := by
    rcases h.mem hs with ⟨hs, heq⟩ | ⟨rfl, rfl⟩
    · rw [heq]
      exact hT.mem c s hs
    · rw [h.new]
  nodup c := by
    by_cases hc : c = r
    · subst hc
      rw [h.stms]
      refine List.nodup_append.mpr ⟨hT.nodup c, List.pairwise_singleton _ _, ?_⟩
      rintro s hs t ht rfl
      have hlt := h.fresh c s hs
      rw [List.mem_singleton.mp ht] at hlt
      exact Nat.lt_irrefl _ hlt
    · rw [h.others c hc]
      exact hT.nodup c
  nested s d ho := by
    rw [h.parent, (h.owns ho).2]
    exact hT.nested s d (h.owns ho).1
  owner s s' d ho ho' := hT.owner s s' d (h.owns ho).1 (h.owns ho').1
  loop s d ho hrole := by
    rw [(h.owns ho).2]
    exact hT.loop s d (h.owns ho).1 (by rwa [← h.role])

theorem Appended.within (h : Appended f f' r) (hW : Within f' R c) : Within f R c := by
  induction hW with
  | root hc => exact .root hc
  | nested _ hs hd ih =>
    obtain ⟨hs, heq⟩ := h.old hs hd
    rw [heq] at hd
    exact ih.nested hs hd

theorem Appended.isReturn (h : Appended f f' r) (hs : s < f.nextStm) :
    f'.isReturn s = f.isReturn s := by
  unfold Func.isReturn
  rw [h.stm s hs]

/-- What was live is live with a return behind it. -/
theorem Appended.front (h : Appended f f' r) (hs : s ∈ Generate.front f (f.block c).stms) :
    s ∈ Generate.front f' (f'.block c).stms := by
  have key : ∀ stms more, (∀ s ∈ stms, s < f.nextStm) → s ∈ Generate.front f stms →
      s ∈ Generate.front f' (stms ++ more) := by
    intro stms more hlt
    induction stms with
    | nil => exact fun hs => nomatch hs
    | cons x stms ih =>
      intro hs
      rw [Generate.front] at hs
      rw [List.cons_append, Generate.front, h.isReturn (hlt x List.mem_cons_self)]
      split at hs
      · next hx =>
        rw [if_pos hx]
        exact hs
      · next hx =>
        rw [if_neg hx]
        rcases List.mem_cons.mp hs with rfl | hs
        · exact List.mem_cons_self
        · exact List.mem_cons_of_mem _ (ih (fun s hs => hlt s (List.mem_cons_of_mem _ hs)) hs)
  by_cases hc : c = r
  · subst hc
    rw [h.stms]
    exact key _ _ (h.fresh c) hs
  · have hnil := key _ [] (h.fresh c) hs
    rwa [List.append_nil, ← h.others c hc] at hnil

theorem Appended.live (h : Appended f f' r) (hL : Live f b c) : Live f' b c := by
  induction hL with
  | self => exact .self
  | @nested c d s hc hs hd ih =>
    refine ih.nested (h.front hs) ?_
    rwa [h.stm s (h.fresh c s (front_subset s hs))]

theorem Appended.gotosLive (h : Appended f f' r) (hg : GotosLive f r) : GotosLive f' r := by
  intro c hW s hs test dest hk
  rcases h.mem hs with ⟨hs, heq⟩ | ⟨-, rfl⟩
  · rw [heq] at hk
    obtain ⟨hlive, hfront⟩ := hg c (h.within hW) s hs test dest hk
    have hdest := h.stm dest (h.fresh _ dest (front_subset dest hfront))
    unfold LiveIn
    rw [hdest]
    exact ⟨h.live hlive, h.front hfront⟩
  · rw [h.new] at hk
    cases hk

theorem Appended.loopBody (h : Appended f f' r) (hp : f.ParentLt) (heq : f'.stm s = f.stm s) :
    EMI.loopBody f' s = EMI.loopBody f s := by
  unfold EMI.loopBody
  rw [heq, Func.chain_congr hp fun c _ => h.parent c]
  simp only [h.role]

theorem Appended.continuesRecorded (h : Appended σ.func σ'.func r) (hp : σ.func.ParentLt)
    (hedges : σ'.cfgEdges = σ.cfgEdges) (hc : ContinuesRecorded σ R) : ContinuesRecorded σ' R := by
  intro c hW s hs test l hk hl
  rcases h.mem hs with ⟨hs, heq⟩ | ⟨-, rfl⟩
  · rw [heq] at hk
    rw [h.loopBody hp heq] at hl
    rw [hedges]
    exact hc c (h.within hW) s hs test l hk hl
  · rw [h.new] at hk
    cases hk

/-- **A body to which a return is appended must return.** -/
theorem Tracked.appendReturn_blockReturns (h : Tracked σ R Z)
    (hrole : (σ.func.block r).role ≠ .loop) : BlockReturns (σ.appendReturn r) r := by
  have hstms : ((σ.appendReturn r).func.block r).stms =
      (σ.func.block r).stms ++ [σ.func.nextStm] := by
    simp [FlowGraph.appendReturn, Func.newStm, Func.setStms, FlowGraph.stms]
  have hnew : (σ.appendReturn r).func.isReturn σ.func.nextStm = true := by
    simp [FlowGraph.appendReturn, Func.newStm, Func.isReturn]
  refine ⟨1, ?_⟩
  simp only [FlowGraph.blockMustReturn, Bool.and_eq_true, List.all_eq_true, decide_eq_true_eq]
  refine ⟨⟨h.breakStms_nil hrole, ?_⟩, h.backEdges hrole⟩
  unfold Func.getLastStm
  rw [hstms]
  cases hfind : ((σ.func.block r).stms ++ [σ.func.nextStm]).find?
      (σ.appendReturn r).func.isReturn with
  | none => exact absurd hnew (List.find?_eq_none.mp hfind _ (by simp))
  | some u =>
    have hu := List.find?_some hfind
    unfold Func.isReturn at hu
    simp only [Option.any_some, FlowGraph.stmMustReturnFrom, FlowGraph.kind]
    split at hu
    · next hk => rw [hk]
    · cases hu

/-! ## After the creation of a body -/

theorem Tracked.selfEdge (h : Tracked σ R []) (hb : R b) : Tracked (σ.selfEdge b) R [] := by
  refine ⟨h.forest, h.pending, ?_, ?_, ?_, h.break_stms, h.blocks⟩
  · intro e he
    rcases List.mem_append.mp he with he | he
    · exact h.edge e he
    · rw [List.mem_singleton.mp he]
      exact ⟨.root hb, .root hb, rfl⟩
  · exact fun s hs test l hk hl => (h.cont s hs test l hk hl).imp_left (List.mem_append_left _)
  · exact fun s hs test dest hk =>
      (h.goto s hs test dest hk).imp_left fun ⟨back, he⟩ => ⟨back, List.mem_append_left _ he⟩

/-- The loop around the search deletes, whatever the search finds. -/
theorem deleteTails_spec {notZero : ℕ → Bool} {fails : List ℕ} {selfBackEdge : Bool}
    (h : Tracked σ R []) (hb : R b) :
    ∃ σ', FlowGraph.deleteTails notZero b fails selfBackEdge σ = some σ' ∧ Tracked σ' R [] ∧
      Shrunk σ.func σ'.func := by
  induction fails generalizing σ selfBackEdge with
  | nil => exact ⟨σ, rfl, h, .refl⟩
  | cons index fails ih =>
    obtain ⟨σ₁, hrun, h₁, hrem, -⟩ := deleteTail_spec index h hb
    rw [FlowGraph.deleteTails, hrun, Option.bind_some]
    split
    · obtain ⟨σ', hrest, h', hsh⟩ := ih (h₁.selfEdge hb)
      exact ⟨σ', hrest, h', hrem.shrunk.trans hsh⟩
    · obtain ⟨σ', hrest, h', hsh⟩ := ih h₁
      exact ⟨σ', hrest, h', hrem.shrunk.trans hsh⟩

/-- **`post_creation_analysis` of a body** deletes, and appends a return where the
body need not return. -/
theorem postCreationAnalysis_spec (notZero : ℕ → Bool) (needRevisit : Bool) (fails : List ℕ)
    (h : Tracked σ (· = r) []) (hr : (σ.func.block r).parent = none) :
    ∃ σ₁, Tracked σ₁ (· = r) [] ∧ Shrunk σ.func σ₁.func ∧
      σ.postCreationAnalysis notZero needRevisit true fails r =
        some (if σ₁.mustReturn r then σ₁ else σ₁.appendReturn r) := by
  have hself := h.selfEdge (rfl : r = r)
  -- what is analysed, and a search that finds nothing
  have hdone : ∀ o : Option (FlowGraph M), (∃ σ₁, o = some σ₁ ∧ Tracked σ₁ (· = r) [] ∧
      Shrunk σ.func σ₁.func) → ∃ σ₁, Tracked σ₁ (· = r) [] ∧ Shrunk σ.func σ₁.func ∧
        (o.map fun σ => if (σ.func.block r).parent = none ∧ true = true ∧ σ.mustReturn r = false
          then σ.appendReturn r else σ) =
        some (if σ₁.mustReturn r then σ₁ else σ₁.appendReturn r) := by
    rintro o ⟨σ₁, rfl, h₁, hsh⟩
    refine ⟨σ₁, h₁, hsh, ?_⟩
    rw [Option.map_some, hsh.parent, hr]
    cases σ₁.mustReturn r <;> simp
  unfold FlowGraph.postCreationAnalysis
  refine hdone _ ?_
  split
  · split
    · obtain ⟨σ₁, hrun, h₁, hsh⟩ := deleteTails_spec hself rfl
      exact ⟨σ₁, hrun, h₁, hsh⟩
    · exact deleteTails_spec h rfl
  · exact ⟨σ, rfl, h, .refl⟩

/-- **A body that needs a return is not left at its end.** -/
theorem postCreationAnalysis_returns (notZero : ℕ → Bool) (needRevisit : Bool) (fails : List ℕ)
    (h : Tracked σ (· = r) []) (hr : (σ.func.block r).parent = none)
    (hrole : (σ.func.block r).role ≠ .loop)
    (hfresh : ∀ c, ∀ s ∈ (σ.func.block c).stms, s < σ.func.nextStm)
    (hg : GotosLive σ.func r) :
    ∃ σ', σ.postCreationAnalysis notZero needRevisit true fails r = some σ' ∧
      ∀ l, Runs σ'.func (enter σ'.func r) l → l ≠ .endOf r := by
  obtain ⟨σ₁, h₁, hsh, hrun⟩ := postCreationAnalysis_spec notZero needRevisit fails h hr
  have hg₁ := hg.shrunk h hsh h₁
  have hr₁ : (σ₁.func.block r).parent = none := by rwa [hsh.parent]
  refine ⟨_, hrun, fun l hl => ?_⟩
  by_cases hmust : σ₁.mustReturn r = true
  · rw [if_pos hmust] at hl
    have hT := h₁.forest.toIsTree
    exact blockReturns_sound hT hr₁ h₁.continuesRecorded (hg₁.noGotoBehind hT hr₁) (.root rfl)
      ⟨_, hmust⟩ hl
  · rw [if_neg hmust] at hl
    have happ : Appended σ₁.func (σ₁.appendReturn r).func r := by
      refine appendReturn_appended fun c s hs => ?_
      rw [hsh.nextStm]
      exact hfresh c s ((hsh.stms c).subset hs)
    have hT := happ.isTree h₁.forest.toIsTree
    have hr₂ : ((σ₁.appendReturn r).func.block r).parent = none := by rwa [happ.parent]
    have hc := happ.continuesRecorded h₁.forest.parent_lt rfl h₁.continuesRecorded
    exact blockReturns_sound hT hr₂ hc ((happ.gotosLive hg₁).noGotoBehind hT hr₂) (.root rfl)
      (h₁.appendReturn_blockReturns (by rwa [hsh.role])) hl

/-- **`must_return` never lies**, where no goto leads behind a return of a block:
control that enters a block which must return does not come to its end, nor to
the end of a statement which must return. So a body that needs a return value
is not left at its end after `post_creation_analysis`, whatever the fixed point
search finds, where all its gotos lead to what is not behind a return. -/
theorem mustReturn_spec (σ : FlowGraph M) (r : ℕ) (hT : IsTree σ.func)
    (hr : (σ.func.block r).parent = none) (hc : ContinuesRecorded σ (· = r))
    (hg : NoGotoBehind σ.func r) :
    (∀ b, Within σ.func (· = r) b → σ.mustReturn b = true →
      ∀ l, Runs σ.func (enter σ.func b) l → l ≠ .endOf b) ∧
    (∀ b, Within σ.func (· = r) b → ∀ s ∈ (σ.func.block b).stms, σ.stmMustReturn s = true →
      ∀ l, Runs σ.func (.before s) l → ¬ AtEnd σ.func s l) ∧
    (Tracked σ (· = r) [] → (σ.func.block r).role ≠ .loop →
      (∀ c, ∀ s ∈ (σ.func.block c).stms, s < σ.func.nextStm) → GotosLive σ.func r →
      ∀ notZero needRevisit fails, ∃ σ',
        σ.postCreationAnalysis notZero needRevisit true fails r = some σ' ∧
        ∀ l, Runs σ'.func (enter σ'.func r) l → l ≠ .endOf r) :=
  ⟨fun _ hW hret _ hl => blockReturns_sound hT hr hc hg hW ⟨_, hret⟩ hl,
    fun _ hW _ hs hret _ hl => stmReturns_sound hT hr hc hg hW hs ⟨_, hret⟩ hl,
    fun h hrole hfresh hlive notZero needRevisit fails =>
      postCreationAnalysis_returns notZero needRevisit fails h hr hrole hfresh hlive⟩

/-- A loop with a break and a continue, a goto back to it, and an if that
returns. -/
def loopThenReturn : FlowGraph Bool where
  func :=
    { block := fun b =>
        match b with
        | 0 => ⟨none, .body, false, [], [0, 3, 4]⟩
        | 1 => ⟨some 0, .loop, false, [], [1, 2]⟩
        | 2 => ⟨some 0, .branch, false, [], [5]⟩
        | 3 => ⟨some 0, .branch, false, [], [6]⟩
        | _ => ⟨none, .branch, false, [], []⟩
      stm := fun s =>
        match s with
        | 0 => ⟨0, .forLoop id id not 1, []⟩
        | 1 => ⟨1, .cont id, []⟩
        | 2 => ⟨1, .brk not, []⟩
        | 3 => ⟨0, .goto id 0, []⟩
        | 4 => ⟨0, .ifElse id 2 3, []⟩
        | 5 => ⟨2, .ret, []⟩
        | _ => ⟨3, .ret, []⟩
      blocks := [0, 1, 2, 3]
      nextBlock := 4
      nextStm := 7 }
  cfgEdges := [⟨.stm 1, .block 1, false, true⟩, ⟨.stm 2, .stm 0, true, false⟩,
    ⟨.stm 3, .stm 0, false, true⟩]
  breakStms := fun b => if b = 1 then [2] else []

theorem loopThenReturn_stms {c s : ℕ} (hs : s ∈ (loopThenReturn.func.block c).stms) :
    (c, s) ∈ [(0, 0), (0, 3), (0, 4), (1, 1), (1, 2), (2, 5), (3, 6)] := by
  simp only [loopThenReturn] at hs
  split at hs <;> simp_all

theorem loopThenReturn_blocks {c s d : ℕ} (hs : s ∈ (loopThenReturn.func.block c).stms)
    (hd : d ∈ (loopThenReturn.func.stm s).kind.blocks) :
    (s, d) ∈ [(0, 1), (4, 2), (4, 3)] := by
  have hmem := loopThenReturn_stms hs
  simp only [List.mem_cons, Prod.mk.injEq, List.not_mem_nil, or_false] at hmem
  rcases hmem with ⟨rfl, rfl⟩ | ⟨rfl, rfl⟩ | ⟨rfl, rfl⟩ | ⟨rfl, rfl⟩ | ⟨rfl, rfl⟩ | ⟨rfl, rfl⟩ |
    ⟨rfl, rfl⟩ <;> simp_all [loopThenReturn, Kind.blocks]

theorem loopThenReturn_tracked : Tracked loopThenReturn (· = 0) [] := by
  have howns : ∀ {s d}, Owns loopThenReturn.func s d → (s = 0 ∧ d = 1) ∨ (s = 4 ∧ d = 2) ∨
      (s = 4 ∧ d = 3) := by
    intro s d ho
    simpa using loopThenReturn_blocks ho.1 ho.2
  have hwithin : ∀ c, Within loopThenReturn.func (· = 0) c → c < 4 := by
    intro c hW
    cases hW with
    | root hc =>
      rw [hc]
      decide
    | nested _ hs hd =>
      have hmem := loopThenReturn_blocks hs hd
      simp only [List.mem_cons, Prod.mk.injEq, List.not_mem_nil, or_false] at hmem
      omega
  have hroot : Within loopThenReturn.func (· = 0) 0 := .root rfl
  have hloop : Within loopThenReturn.func (· = 0) 1 := hroot.nested (s := 0) (by decide) (by decide)
  have htrue : Within loopThenReturn.func (· = 0) 2 := hroot.nested (s := 4) (by decide) (by decide)
  have hfalse : Within loopThenReturn.func (· = 0) 3 :=
    hroot.nested (s := 4) (by decide) (by decide)
  -- the forest of the blocks first, then the edges, the continues, the gotos and the lists
  refine ⟨⟨⟨?_, ?_, ?_, ?_, ?_, ?_⟩, ?_, ?_, hwithin⟩, fun z hz => absurd hz List.not_mem_nil, ?_,
    ?_, ?_, ?_, ?_⟩
  · intro b p hp
    rcases b with _ | _ | _ | _ | n
    · cases hp
    · obtain rfl : 0 = p := Option.some.inj hp
      exact Nat.zero_lt_one
    · obtain rfl : 0 = p := Option.some.inj hp
      decide
    · obtain rfl : 0 = p := Option.some.inj hp
      decide
    · cases hp
  · intro c s hs
    have hmem := loopThenReturn_stms hs
    simp only [List.mem_cons, Prod.mk.injEq, List.not_mem_nil, or_false] at hmem
    rcases hmem with ⟨rfl, rfl⟩ | ⟨rfl, rfl⟩ | ⟨rfl, rfl⟩ | ⟨rfl, rfl⟩ | ⟨rfl, rfl⟩ | ⟨rfl, rfl⟩ |
      ⟨rfl, rfl⟩ <;> rfl
  · intro c
    simp only [loopThenReturn]
    split <;> decide
  · intro s d ho
    rcases howns ho with ⟨rfl, rfl⟩ | ⟨rfl, rfl⟩ | ⟨rfl, rfl⟩ <;> rfl
  · intro s s' d ho ho'
    have h := howns ho
    have h' := howns ho'
    omega
  · intro s d ho hrole
    rcases howns ho with ⟨rfl, rfl⟩ | ⟨rfl, rfl⟩ | ⟨rfl, rfl⟩
    · exact ⟨id, id, not, rfl⟩
    · cases hrole
    · cases hrole
  · rintro r p rfl hp
    cases hp
  · rintro r s rfl ho
    have h := howns ho
    omega
  · intro e he
    simp only [loopThenReturn, List.mem_cons, List.not_mem_nil, or_false] at he
    rcases he with rfl | rfl | rfl
    · exact ⟨⟨by decide, hloop⟩, hloop, ⟨1, by decide, rfl⟩⟩
    · exact ⟨⟨by decide, hloop⟩, ⟨by decide, hroot⟩, ⟨1, 0, by decide, by decide, rfl⟩⟩
    · exact ⟨⟨by decide, hroot⟩, ⟨by decide, hroot⟩, rfl⟩
  · intro s hs test l hk hl
    have hmem := loopThenReturn_stms hs.1
    simp only [List.mem_cons, Prod.mk.injEq, List.not_mem_nil, or_false] at hmem
    rcases hmem with ⟨-, rfl⟩ | ⟨-, rfl⟩ | ⟨-, rfl⟩ | ⟨-, rfl⟩ | ⟨-, rfl⟩ | ⟨-, rfl⟩ | ⟨-, rfl⟩
    -- the only continue
    case inr.inr.inr.inl =>
      have hbody : loopBody loopThenReturn.func 1 = some 1 := by decide
      rw [hbody] at hl
      cases hl
      exact .inl (by decide)
    all_goals cases hk
  · intro s hs test dest hk
    have hmem := loopThenReturn_stms hs.1
    simp only [List.mem_cons, Prod.mk.injEq, List.not_mem_nil, or_false] at hmem
    rcases hmem with ⟨-, rfl⟩ | ⟨-, rfl⟩ | ⟨-, rfl⟩ | ⟨-, rfl⟩ | ⟨-, rfl⟩ | ⟨-, rfl⟩ | ⟨-, rfl⟩
    -- the only goto
    case inr.inl =>
      cases hk
      exact .inl ⟨true, by decide⟩
    all_goals cases hk
  · intro b s hs
    simp only [loopThenReturn] at hs
    split at hs
    · next hb =>
      rw [hb, List.mem_singleton.mp hs]
      exact ⟨⟨not, rfl⟩, by decide, fun _ => ⟨by decide, hloop⟩⟩
    · cases hs
  · intro b hb
    simp only [loopThenReturn, List.mem_cons, List.not_mem_nil, or_false] at hb
    rcases hb with rfl | rfl | rfl | rfl
    · exact hroot
    · exact hloop
    · exact htrue
    · exact hfalse

theorem loopThenReturn_gotosLive : GotosLive loopThenReturn.func 0 := by
  intro c _ s hs test dest hk
  have hmem := loopThenReturn_stms hs
  simp only [List.mem_cons, Prod.mk.injEq, List.not_mem_nil, or_false] at hmem
  rcases hmem with ⟨-, rfl⟩ | ⟨-, rfl⟩ | ⟨-, rfl⟩ | ⟨-, rfl⟩ | ⟨-, rfl⟩ | ⟨-, rfl⟩ | ⟨-, rfl⟩
  case inr.inl =>
    cases hk
    exact ⟨.self, by decide⟩
  all_goals cases hk

/-- No run leaves the body at its end, nor once the if is deleted. -/
theorem mustReturn_spec_loopThenReturn :
    (∀ l, Runs loopThenReturn.func (enter loopThenReturn.func 0) l → l ≠ .endOf 0) ∧
    (∀ l, Runs loopThenReturn.func (.before 4) l → ¬ AtEnd loopThenReturn.func 4 l) ∧
    ∃ σ', loopThenReturn.postCreationAnalysis (fun _ => false) true true [2] 0 = some σ' ∧
      ∀ l, Runs σ'.func (enter σ'.func 0) l → l ≠ .endOf 0 := by
  have hT := loopThenReturn_tracked
  have hg := loopThenReturn_gotosLive
  obtain ⟨hblock, hstm, hpost⟩ := mustReturn_spec loopThenReturn 0 hT.forest.toIsTree rfl
    hT.continuesRecorded (hg.noGotoBehind hT.forest.toIsTree rfl)
  refine ⟨hblock 0 (.root rfl) (by decide), hstm 0 (.root rfl) 4 (by decide) (by decide),
    hpost hT (by decide) ?_ hg _ _ _⟩
  intro c s hs
  have hmem := loopThenReturn_stms hs
  simp only [List.mem_cons, Prod.mk.injEq, List.not_mem_nil, or_false] at hmem
  have hseven : loopThenReturn.func.nextStm = 7 := rfl
  omega

/-! ## Jumps behind a return -/

/-- A body of statements without blocks. -/
def flatBody (kinds : List (Kind Unit)) (cfgEdges : List CFGEdge) : FlowGraph Unit where
  func :=
    { block := fun b => if b = 0 then ⟨none, .body, false, [], List.range kinds.length⟩
        else ⟨none, .branch, false, [], []⟩
      stm := fun s => ⟨0, kinds.getD s .ret, []⟩
      blocks := [0]
      nextBlock := 1
      nextStm := kinds.length }
  cfgEdges := cfgEdges

variable {kinds : List (Kind Unit)} {cfgEdges : List CFGEdge}

theorem mem_flatBody (hs : s ∈ ((flatBody kinds cfgEdges).func.block c).stms) :
    c = 0 ∧ s < kinds.length := by
  simp only [flatBody] at hs
  split at hs
  · next hc => exact ⟨hc, List.mem_range.mp hs⟩
  · cases hs

/-- Only simple statements, returns and gotos inside the body, with their edges. -/
def FlatOk (kinds : List (Kind Unit)) (cfgEdges : List CFGEdge) : Prop :=
  (∀ k ∈ kinds, k.blocks = [] ∧ ∀ test, k ≠ .cont test) ∧
  (∀ e ∈ cfgEdges, ∃ s dest test, e.src = .stm s ∧ e.dest = .stm dest ∧ s < kinds.length ∧
    dest < kinds.length ∧ kinds.getD s .ret = .goto test dest) ∧
  ∀ s < kinds.length, ∀ test dest, kinds.getD s .ret = .goto test dest →
    ∃ back, (⟨.stm s, .stm dest, false, back⟩ : CFGEdge) ∈ cfgEdges

theorem flatBody_tracked (h : FlatOk kinds cfgEdges) :
    Tracked (flatBody kinds cfgEdges) (· = 0) [] := by
  obtain ⟨hkinds, hedges, hgotos⟩ := h
  have hkind : ∀ s < kinds.length, kinds.getD s .ret ∈ kinds := by
    intro s hs
    rw [List.getD_eq_getElem?_getD, List.getElem?_eq_getElem hs, Option.getD_some]
    exact List.getElem_mem hs
  have hparent : ∀ b, ((flatBody kinds cfgEdges).func.block b).parent = none := by
    intro b
    simp only [flatBody]
    split <;> rfl
  -- no statement of the body has a block, so that the body is the only one
  have hnone : ∀ c s d, s ∈ ((flatBody kinds cfgEdges).func.block c).stms →
      d ∉ ((flatBody kinds cfgEdges).func.stm s).kind.blocks := by
    intro c s d hs hd
    have hblocks := (hkinds _ (hkind s (mem_flatBody hs).2)).1
    simp only [flatBody] at hd
    rw [hblocks] at hd
    cases hd
  have howner : ∀ s d, ¬ Owns (flatBody kinds cfgEdges).func s d :=
    fun s d ho => hnone _ s d ho.1 ho.2
  have hwithin : ∀ c, Within (flatBody kinds cfgEdges).func (· = 0) c → c = 0 := by
    intro c hW
    cases hW with
    | root hc => exact hc
    | nested _ hs hd => exact absurd hd (hnone _ _ _ hs)
  have hpresent : ∀ s < kinds.length,
      Present (flatBody kinds cfgEdges).func (· = 0) (.stm s) := by
    intro s hs
    exact ⟨List.mem_range.mpr hs, .root rfl⟩
  refine ⟨⟨⟨?_, ?_, ?_, ?_, ?_, ?_⟩, ?_, ?_, ?_⟩, fun z hz => (nomatch hz), ?_, ?_, ?_, ?_, ?_⟩
  · intro b p hp
    rw [hparent] at hp
    cases hp
  · exact fun c s hs => (mem_flatBody hs).1.symm
  · intro c
    simp only [flatBody]
    split
    · exact List.nodup_range
    · exact List.nodup_nil
  · exact fun s d ho => absurd ho (howner s d)
  · exact fun s s' d ho => absurd ho (howner s d)
  · exact fun s d ho => absurd ho (howner s d)
  · intro r p _ hp
    rw [hparent] at hp
    cases hp
  · exact fun r s _ => howner s r
  · intro c hW
    rw [hwithin c hW]
    exact Nat.zero_lt_one
  · intro e he
    obtain ⟨s, dest, test, hsrc, hdest, hs, hd, hk⟩ := hedges e he
    rw [hsrc, hdest]
    refine ⟨hpresent s hs, hpresent dest hd, ?_⟩
    unfold EdgeOk
    rw [hsrc]
    simp only [flatBody]
    rw [hk]
    exact hdest
  · intro s hs test l hk
    exact absurd hk ((hkinds _ (hkind s (mem_flatBody hs.1).2)).2 test)
  · exact fun s hs test dest hk => .inl (hgotos s (mem_flatBody hs.1).2 test dest hk)
  · exact fun b s hs => nomatch hs
  · intro b hb
    exact .root (List.mem_singleton.mp hb)

/-- A goto behind the return. -/
def deadLabel : FlowGraph Unit :=
  flatBody [.goto (fun _ => true) 2, .ret, .simple id] [⟨.stm 0, .stm 2, false, false⟩]

theorem deadLabel_tracked : Tracked deadLabel (· = 0) [] := by
  refine flatBody_tracked ⟨?_, ?_, ?_⟩
  · intro k hk
    simp only [List.mem_cons, List.not_mem_nil, or_false] at hk
    rcases hk with rfl | rfl | rfl
    all_goals
      refine ⟨rfl, fun _ h => ?_⟩
      cases h
  · intro e he
    obtain rfl := List.mem_singleton.mp he
    exact ⟨0, 2, _, rfl, rfl, by decide, by decide, rfl⟩
  · intro s hs test dest hk
    rcases s with _ | _ | _ | s
    · cases hk
      exact ⟨false, by decide⟩
    · cases hk
    · cases hk
    · cases hk

/-- The goto leads behind the return, at the end of a body that must return. -/
theorem deadLabel_reaches_end : Tracked deadLabel (· = 0) [] ∧
    (deadLabel.func.block 0).parent = none ∧ deadLabel.mustReturn 0 = true ∧
    Runs deadLabel.func (enter deadLabel.func 0) (.endOf 0) := by
  refine ⟨deadLabel_tracked, rfl, by decide, ?_⟩
  have hgoto : LocalStep deadLabel.func () (.before 0) () (.before 2) := .gotoTaken rfl rfl
  have hsimple : LocalStep deadLabel.func () (.before 2) () (after deadLabel.func 2) :=
    @LocalStep.simple Unit deadLabel.func () 2 id rfl
  exact (Relation.ReflTransGen.single ⟨(), (), hgoto⟩).tail ⟨(), (), hsimple⟩

end Generate

end CLSmith
