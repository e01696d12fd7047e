import CLSmith.Goto.Initialisers
/-!
# Functions of a program

The generation of a function with its control flow, as events of a program under
construction. Each event of the one is matched by events of the other: a removal by
one for every statement that goes with it, what only the fact manager sees by none.
The functions of a program so have all that tracking proves of one.
-/

namespace CLSmith

namespace Generate

variable {M : Type} {σ σ' : FlowGraph M} {g : State M} {cg : CGOptions} {i b s : ℕ}

namespace State

@[simp] theorem setFunc_func (g : State M) (i : ℕ) (f : Func M) : (g.setFunc i f).func i = f :=
  Function.update_self ..

@[simp] theorem setFunc_setFunc (g : State M) (i : ℕ) (f f' : Func M) :
    (g.setFunc i f).setFunc i f' = g.setFunc i f' := by
  unfold setFunc
  rw [Function.update_idem]

@[simp] theorem setFunc_self (g : State M) (i : ℕ) : g.setFunc i (g.func i) = g := by
  unfold setFunc
  rw [Function.update_eq_self]

theorem setFunc_of_eq {f : Func M} (h : g.func i = f) : g.setFunc i f = g := by
  rw [← h, setFunc_self]

end State

/-! ## Removal -/

/-- The end of `remove_stmt` is one removal from the function. -/
theorem eraseStmt_func (hb : b = (σ.func.stm s).parent) :
    (σ.eraseStmt b s).func = σ.func.removeStmt s := by
  subst hb
  have hblocks : (fun d => !σ.containsBlock s d) =
      fun d => decide (∀ c ∈ (σ.func.stm s).kind.blocks, c ∉ σ.func.chain d) := by
    funext d
    rw [Bool.eq_iff_iff]
    simp [FlowGraph.containsBlock, FlowGraph.kind]
  unfold FlowGraph.eraseStmt Func.removeStmt
  rw [hblocks]
  split
  · rfl
  · next hs =>
    have hstms : (σ.func.block (σ.func.stm s).parent).stms.erase s =
        (σ.func.block (σ.func.stm s).parent).stms := List.erase_of_not_mem hs
    unfold Func.setStms
    rw [hstms, Function.update_eq_self]

/-- Removals, one after the other, leave the statements in the table. -/
theorem foldl_removeStmt_stm (l : List ℕ) (f : Func M) :
    (l.foldl Func.removeStmt f).stm = f.stm := by
  induction l generalizing f with
  | nil => rfl
  | cons t l ih => exact ih (f.removeStmt t)

theorem removeEdges_func {rm : ℕ → ℕ → FlowGraph M → Option (FlowGraph M)}
    (hrm : ∀ (σ σ' : FlowGraph M) t, rm (σ.func.stm t).parent t σ = some σ' →
      ∃ l : List ℕ, σ'.func = l.foldl Func.removeStmt σ.func) {n : ℕ}
    (hrun : FlowGraph.removeEdges rm s n σ = some σ') :
    ∃ l : List ℕ, σ'.func = l.foldl Func.removeStmt σ.func := by
  induction n generalizing σ with
  | zero => cases hrun
  | succ n ih =>
    unfold FlowGraph.removeEdges at hrun
    split at hrun
    · cases hrun
      exact ⟨[], rfl⟩
    · next e _ =>
      dsimp only at hrun
      split at hrun
      · next t _ =>
        split at hrun
        · obtain ⟨σ₁, hone, hrest⟩ := Option.bind_eq_some_iff.mp hrun
          obtain ⟨l₁, h₁⟩ := hrm _ _ _ hone
          obtain ⟨l₂, h₂⟩ := ih hrest
          exact ⟨l₁ ++ l₂, by rw [h₂, h₁, List.foldl_append]⟩
        · obtain ⟨l, hl⟩ := ih hrun
          exact ⟨l, hl⟩
      · obtain ⟨l, hl⟩ := ih hrun
        exact ⟨l, hl⟩

/-- **`remove_stmt` removes statements of the function**, one after the other. -/
theorem removeStmtFrom_func {n : ℕ}
    (hrun : FlowGraph.removeStmtFrom n (σ.func.stm s).parent s σ = some σ') :
    ∃ l : List ℕ, σ'.func = l.foldl Func.removeStmt σ.func := by
  induction n generalizing σ σ' s with
  | zero => cases hrun
  | succ n ih =>
    obtain ⟨σ₁, hedges, rfl⟩ := Option.map_eq_some_iff.mp hrun
    obtain ⟨l, hl⟩ := removeEdges_func (fun _ _ _ h => ih h) hedges
    have hfunc : (σ.dropJumps (σ.func.stm s).parent s).func = σ.func := rfl
    have hpar : (σ.func.stm s).parent = (σ₁.func.stm s).parent := by
      rw [hl, foldl_removeStmt_stm, hfunc]
    refine ⟨l ++ [s], ?_⟩
    rw [eraseStmt_func hpar, hl, hfunc, List.foldl_append]
    rfl

theorem reaches_removeStmts (l : List ℕ) (g : State M) :
    (State.system M cg).Reaches g (g.setFunc i (l.foldl Func.removeStmt (g.func i))) := by
  induction l generalizing g with
  | nil =>
    rw [List.foldl_nil, State.setFunc_self]
    exact .refl
  | cons t l ih =>
    have hone : (State.system M cg).Step g (g.setFunc i ((g.func i).removeStmt t)) :=
      ⟨(i, .removeStmt t), rfl⟩
    have hrest := ih (g.setFunc i ((g.func i).removeStmt t))
    rw [State.setFunc_func, State.setFunc_setFunc] at hrest
    exact (Common.System.Reaches.single hone).trans hrest

/-! ## The other events -/

/-- The blocks around an open block are open. -/
theorem Building.chain_subset_stack (h : Building σ) (hb : b ∈ σ.func.stack) :
    σ.func.chain b ⊆ σ.func.stack := by
  induction b using Nat.strong_induction_on with
  | _ b ih =>
    intro c hc
    cases hpar : (σ.func.block b).parent with
    | none =>
      rw [Func.chain_of_none hpar] at hc
      obtain rfl := List.mem_singleton.mp hc
      exact hb
    | some p =>
      rw [Func.chain_of_parent h.wf.parent_lt hpar] at hc
      rcases List.mem_cons.mp hc with rfl | hc
      · exact hb
      · exact ih p (h.wf.parent_lt b p hpar) (h.stack_parent b hb p hpar) hc

/-- The items handed out after an event, where it can be made with `n` of them: the
test of an EMI block is about the next two. -/
def itemsAfter (n : ℕ) : FlowEvent M → Option ℕ
  | .openBlock (.emi item1 item2) _ =>
    if item1 = n ∧ item2 = n + 1 ∧ n < 1024 then some (n + 2) else none
  | _ => some n

theorem itemsAfter_openBlock {role : Role} {inArrayLoop : Bool} {m n : ℕ}
    (h : itemsAfter n (.openBlock role inArrayLoop : FlowEvent M) = some m) :
    role.isEmi = false ∧ m = n ∨ role = .emi n (n + 1) ∧ n < 1024 ∧ m = n + 2 := by
  cases role with
  | emi item1 item2 =>
    obtain ⟨⟨rfl, rfl, hlt⟩, hm⟩ := Option.ite_none_right_eq_some.mp h
    exact .inr ⟨rfl, hlt, (Option.some.inj hm).symm⟩
  | _ => exact .inl ⟨rfl, (Option.some.inj h).symm⟩

/-- **An event of a function is matched by events of the program** it is in, which
leave the other functions. -/
theorem reaches_of_step {e : FlowEvent M} {n : ℕ} (h : Building σ)
    (hstep : σ.step cg e = some σ') (hg : g.func i = σ.func)
    (hn : itemsAfter g.itemCount e = some n) :
    (State.system M cg).Reaches g (State.setFunc { g with itemCount := n } i σ'.func) := by
  -- the events of the program for all but a removal are one or none
  have hone : ∀ e' : Event M, n = g.itemCount → g.step cg i e' = some (g.setFunc i σ'.func) →
      (State.system M cg).Reaches g (State.setFunc { g with itemCount := n } i σ'.func) := by
    rintro e' rfl he
    exact .single ⟨(i, e'), he⟩
  have hnone : n = g.itemCount → σ'.func = σ.func →
      (State.system M cg).Reaches g (State.setFunc { g with itemCount := n } i σ'.func) := by
    rintro rfl hfunc
    have hself : State.setFunc { g with itemCount := g.itemCount } i σ'.func = g :=
      State.setFunc_of_eq (hg.trans hfunc.symm)
    rw [hself]
    exact .refl
  cases e with
  | openBlock role inArrayLoop =>
    obtain ⟨ho, hσ⟩ := Option.ite_none_right_eq_some.mp hstep
    cases hσ
    rcases itemsAfter_openBlock hn with ⟨hrole, hcount⟩ | ⟨rfl, hlt, rfl⟩
    · refine hone (.openBlock role inArrayLoop) hcount ?_
      simp [State.step, hrole, hg]
    · have hstack : (g.func i).stack ≠ [] := by
        rw [hg]
        intro hnil
        cases ho.1.mp hnil
      refine .single ⟨(i, .openEmi inArrayLoop), ?_⟩
      show g.step cg i (.openEmi inArrayLoop) = _
      simp only [State.step]
      rw [if_pos ⟨hstack, hlt⟩, hg]
  | closeBlock =>
    obtain ⟨-, hσ⟩ := Option.ite_none_right_eq_some.mp hstep
    cases hσ
    refine hone .closeBlock (Option.some.inj hn).symm ?_
    simp only [State.step, hg]
  | newLocal b v =>
    obtain ⟨⟨hb, -⟩, hσ⟩ := Option.ite_none_right_eq_some.mp hstep
    obtain ⟨blk, hblk, rfl⟩ := Option.map_eq_some_iff.mp hσ
    -- the block found is around an open one
    obtain ⟨b', hrun, hmem, -⟩ := h.expandFrom_spec (Nat.lt_succ_self b) (h.stack_lt hb)
    obtain rfl : b' = blk := Option.some.inj (hrun.symm.trans hblk)
    have hopen := h.chain_subset_stack hb hmem
    refine hone (.newLocal b' v) (Option.some.inj hn).symm ?_
    simp only [State.step, hg, if_pos hopen]
  | append kind calls =>
    refine hone (.append kind calls) (Option.some.inj hn).symm ?_
    simp only [FlowGraph.step] at hstep
    split at hstep
    · cases hstep
    · next b hb =>
      obtain ⟨hfits, hσ⟩ := Option.ite_none_right_eq_some.mp hstep
      cases hσ
      simp only [State.step, hg, hb, if_pos hfits]
      rfl
  | goto draws condVar ok =>
    obtain ⟨hgotos, hσ⟩ := Option.ite_none_right_eq_some.mp hstep
    split at hσ
    · cases hσ
    · next b hb =>
      split at hσ
      · next j test hj =>
        obtain ⟨f, hmake, rfl⟩ := Option.map_eq_some_iff.mp hσ
        refine hone (.goto draws (some test) ok) (Option.some.inj hn).symm ?_
        simp only [State.step, if_pos hgotos, hg, hb, hj, hmake, Option.map_some]
      · cases hσ
        exact hnone (Option.some.inj hn).symm rfl
  | selfEdge =>
    refine hnone (Option.some.inj hn).symm ?_
    simp only [FlowGraph.step] at hstep
    split at hstep
    · cases hstep
    · obtain ⟨-, hσ⟩ := Option.ite_none_right_eq_some.mp hstep
      cases hσ
      rfl
  | removeStmt b s =>
    obtain ⟨⟨-, hs⟩, hσ⟩ := Option.ite_none_right_eq_some.mp hstep
    obtain rfl := (h.wf.mem_stms b s hs).2
    obtain ⟨l, hl⟩ := removeStmtFrom_func hσ
    obtain rfl := Option.some.inj hn
    rw [hl, ← hg]
    exact reaches_removeStmts l g

/-- **A run of a function is a run of the program**, while its EMI blocks get the items
in turn. -/
theorem reaches_of_run {es : List (FlowEvent M)} {n : ℕ}
    (h : (FlowGraph.system M cg).Reachable σ) (hrun : σ.run cg es = some σ')
    (hg : g.func i = σ.func) (hn : es.foldlM itemsAfter g.itemCount = some n) :
    (State.system M cg).Reaches g (State.setFunc { g with itemCount := n } i σ'.func) := by
  induction es generalizing σ g with
  | nil =>
    cases hrun
    cases hn
    rw [State.setFunc_of_eq (g := { g with itemCount := g.itemCount }) hg]
    exact .refl
  | cons e es ih =>
    obtain ⟨σ₁, hstep, hrest⟩ := Option.bind_eq_some_iff.mp hrun
    obtain ⟨m, hm, hn⟩ := Option.bind_eq_some_iff.mp hn
    have hone := reaches_of_step (building_of_reachable h) hstep hg hm
    have hnext := ih (g := State.setFunc { g with itemCount := m } i σ₁.func)
      (h.step ⟨e, hstep⟩) hrest (State.setFunc_func _ i _) hn
    have hsame : State.setFunc { State.setFunc { g with itemCount := m } i σ₁.func with
        itemCount := n } i σ'.func = State.setFunc { g with itemCount := n } i σ'.func :=
      State.setFunc_setFunc { g with itemCount := n } i σ₁.func σ'.func
    rw [hsame] at hnext
    exact hone.trans hnext

end Generate

end CLSmith
