import CLSmith.EMI.PruneBlock
import Mathlib.Logic.Relation
/-!
# What a removal takes along

`remove_stmt` in a function with gotos: with a statement go the gotos that
lead into it, and those that lead to these. Whatever else stands in a block
stays there in its order.
-/

namespace CLSmith

namespace EMI

open Generate

variable {M : Type}

/-- A chain of gotos from one statement to another. -/
def Leads (E : List (ℕ × ℕ)) : ℕ → ℕ → Prop := Relation.TransGen fun g t => (g, t) ∈ E

namespace Pruning

variable {σ σ' σ'' : Pruning M} {X Y : ℕ → Prop} {E : List (ℕ × ℕ)} {n k b s : ℕ}

/-- **Only statements in `X` have gone**, and no goto that still has its edge. The
others are in the order they were in. -/
structure Removal (X : ℕ → Prop) (σ σ' : Pruning M) : Prop where
  stm : σ'.func.stm = σ.func.stm
  edges : σ'.edges ⊆ σ.edges
  sub : ∀ c, (σ'.stms c).Sublist (σ.stms c)
  keep : ∀ c (l : List ℕ), l.Sublist (σ.stms c) → (∀ x ∈ l, ¬ X x) → l.Sublist (σ'.stms c)
  standing : ∀ e ∈ σ'.edges, ∀ c, e.1 ∈ σ.stms c → e.1 ∈ σ'.stms c
  deleted : ∀ e ∈ σ'.edges, ∀ c, e.1 ∈ σ'.deleted c → e.1 ∈ σ.deleted c

namespace Removal

theorem refl (X : ℕ → Prop) (σ : Pruning M) : Removal X σ σ :=
  ⟨rfl, List.Subset.refl _, fun _ => List.Sublist.refl _, fun _ _ h _ => h, fun _ _ _ h => h,
    fun _ _ _ h => h⟩

theorem trans (h : Removal X σ σ') (h' : Removal X σ' σ'') : Removal X σ σ'' where
  stm := h'.stm.trans h.stm
  edges := List.Subset.trans h'.edges h.edges
  sub c := (h'.sub c).trans (h.sub c)
  keep c l hl hX := h'.keep c l (h.keep c l hl hX) hX
  standing e he c hc := h'.standing e he c (h.standing e (h'.edges he) c hc)
  deleted e he c hc := h.deleted e (h'.edges he) c (h'.deleted e he c hc)

theorem mono (h : Removal X σ σ') (hXY : ∀ x, X x → Y x) : Removal Y σ σ' where
  stm := h.stm
  edges := h.edges
  sub := h.sub
  keep c l hl hY := h.keep c l hl fun x hx hX => hY x hx (hXY x hX)
  standing := h.standing
  deleted := h.deleted

theorem kind (h : Removal X σ σ') (s : ℕ) : σ'.kind s = σ.kind s := by
  unfold Pruning.kind
  rw [h.stm]

theorem parent (h : Removal X σ σ') (s : ℕ) : σ'.parent s = σ.parent s := by
  unfold Pruning.parent
  rw [h.stm]

/-- A block without statements of `X` is as it was. -/
theorem stms_eq (h : Removal X σ σ') {c : ℕ} (hc : ∀ x ∈ σ.stms c, ¬ X x) :
    σ'.stms c = σ.stms c :=
  (h.sub c).antisymm (h.keep c _ (List.Sublist.refl _) hc)

/-- Nothing comes to be inside a statement. -/
theorem inside (h : Removal X σ σ') (n s : ℕ) : σ'.inside n s ⊆ σ.inside n s := by
  induction n generalizing s with
  | zero => exact List.Subset.refl _
  | succ n ih =>
    intro t ht
    rw [Pruning.inside, h.kind] at ht
    rw [Pruning.inside]
    rcases List.mem_cons.mp ht with rfl | ht
    · exact List.mem_cons_self
    · obtain ⟨c, hc, ht⟩ := List.mem_flatMap.mp ht
      obtain ⟨u, hu, ht⟩ := List.mem_flatMap.mp ht
      exact List.mem_cons_of_mem _ (List.mem_flatMap.mpr
        ⟨c, hc, List.mem_flatMap.mpr ⟨u, (h.sub c).subset hu, ih u ht⟩⟩)

end Removal

theorem mem_inside (n s : ℕ) : s ∈ σ.inside n s := by
  cases n with
  | zero => exact List.mem_singleton_self s
  | succ n => exact List.mem_cons_self

/-- There is nothing inside a statement without blocks but itself. -/
theorem inside_of_blocks_nil (h : (σ.kind s).blocks = []) (n : ℕ) : σ.inside n s = [s] := by
  cases n with
  | zero => rfl
  | succ n => rw [inside, h, List.flatMap_nil]

theorem eraseStmt_removal (hX : X s) (hs : ∀ e ∈ σ.edges, e.1 ≠ s) :
    Removal X σ (σ.eraseStmt b s) := by
  unfold eraseStmt
  split
  · next hmem =>
    have hstms : ∀ c, ({ σ with
        func := { σ.func with
          block := Function.update σ.func.block b
            { σ.func.block b with stms := (σ.stms b).erase s } }
        deleted := Function.update σ.deleted b (σ.deleted b ++ [s]) } : Pruning M).stms c =
          if c = b then (σ.stms b).erase s else σ.stms c := by
      intro c
      unfold stms
      by_cases hc : c = b
      · subst hc
        simp
      · simp [hc]
    refine ⟨rfl, List.Subset.refl _, fun c => ?_, fun c l hl hX' => ?_, fun e he c hc => ?_,
      fun e he c hc => ?_⟩
    · rw [hstms]
      split
      · next hc =>
        subst hc
        exact List.erase_sublist
      · exact List.Sublist.refl _
    · rw [hstms]
      split
      · next hc =>
        subst hc
        -- what is kept does not have the statement, so that erasing it from the list takes nothing
        have hs' : s ∉ l := fun h => hX' s h hX
        have herase : (l.erase s).Sublist ((σ.stms c).erase s) := hl.erase s
        rwa [List.erase_of_not_mem hs'] at herase
      · exact hl
    · rw [hstms]
      split
      · next hcb =>
        subst hcb
        exact (List.mem_erase_of_ne (hs e he)).mpr hc
      · exact hc
    · change e.1 ∈ Function.update σ.deleted b (σ.deleted b ++ [s]) c at hc
      by_cases hcb : c = b
      · subst hcb
        rw [Function.update_self, List.mem_append, List.mem_singleton] at hc
        exact hc.resolve_right (hs e he)
      · rwa [Function.update_of_ne hcb] at hc
  · exact .refl _ _

theorem exists_edge_of_leads {g t : ℕ} (h : Leads E g t) : ∃ d, (g, d) ∈ E := by
  induction h with
  | single h => exact ⟨_, h⟩
  | tail _ _ ih => exact ih

theorem exists_edge_to_of_leads {g t : ℕ} (h : Leads E g t) : ∃ d, (d, t) ∈ E := by
  cases h with
  | single h => exact ⟨_, h⟩
  | tail _ h => exact ⟨_, h⟩

/-- What goes when `s` does: `S` is what is inside it. -/
def Falls (E : List (ℕ × ℕ)) (S : ℕ → Prop) (s x : ℕ) : Prop := x = s ∨ ∃ t, S t ∧ Leads E x t

/-- The loop over the edges into `s`, where `rm` removes a goto with those
that lead to it. -/
theorem removeJumps_removal {S : ℕ → Prop} {rm : ℕ → ℕ → Pruning M → Pruning M}
    (hrm : ∀ (τ : Pruning M) c g, τ.edges ⊆ E → τ.func.stm = σ.func.stm →
      (τ.kind g).blocks = [] → Removal (Falls E (fun t => t = g) g) τ (rm c g τ))
    (hgoto : ∀ e ∈ E, (σ.kind e.1).blocks = []) (hS : ∀ t ∈ σ.inside n s, S t) (m : ℕ)
    {τ : Pruning M} (hτ : Removal (Falls E S s) σ τ) (hE : τ.edges ⊆ E) :
    Removal (Falls E S s) τ (removeJumps rm n s m τ) := by
  induction m generalizing τ with
  | zero => exact .refl _ _
  | succ m ih =>
    rw [removeJumps]
    split
    · exact .refl _ _
    · next e he =>
      have hmem : e ∈ τ.edges := List.mem_of_find?_eq_some he
      have hdest : e.2 ∈ τ.inside n s := by simpa using List.find?_some he
      have hSe : S e.2 := hS _ (hτ.inside n s hdest)
      have herase : Removal (Falls E S s) τ { τ with edges := τ.edges.erase e } :=
        ⟨rfl, List.erase_subset, fun _ => List.Sublist.refl _, fun _ _ h _ => h,
          fun _ _ _ h => h, fun _ _ _ h => h⟩
      have hblocks : (τ.kind e.1).blocks = [] := by
        rw [hτ.kind]
        exact hgoto e (hE hmem)
      have hgone := hrm { τ with edges := τ.edges.erase e } (τ.parent e.1) e.1
        (List.Subset.trans List.erase_subset hE) hτ.stm hblocks
      have hfall : ∀ x, Falls E (fun t => t = e.1) e.1 x → Falls E S s x := by
        rintro x (rfl | ⟨t, rfl, hx⟩)
        · exact .inr ⟨e.2, hSe, .single (hE hmem)⟩
        · exact .inr ⟨e.2, hSe, hx.tail (hE hmem)⟩
      have hstep := herase.trans (hgone.mono hfall)
      exact hstep.trans (ih (hτ.trans hstep) (List.Subset.trans hstep.edges hE))

/-- **`remove_stmt` takes along the gotos that lead into the statement.** -/
theorem removeStmtFrom_removal {S : ℕ → Prop} (hE : σ.edges ⊆ E)
    (hgoto : ∀ e ∈ E, (σ.kind e.1).blocks = []) (hS : ∀ t ∈ σ.inside n s, S t) :
    Removal (Falls E S s) σ (removeStmtFrom n k b s σ) := by
  induction k generalizing σ b s S with
  | zero => exact .refl _ _
  | succ k ih =>
    have hfilter : Removal (Falls E S s) σ
        { σ with edges := σ.edges.filter fun e => decide (e.1 ∉ σ.inside n s) } :=
      ⟨rfl, List.filter_subset_self _, fun _ => List.Sublist.refl _, fun _ _ h _ => h,
        fun _ _ _ h => h, fun _ _ _ h => h⟩
    have hrm : ∀ (τ : Pruning M) c g, τ.edges ⊆ E → τ.func.stm = σ.func.stm →
        (τ.kind g).blocks = [] →
        Removal (Falls E (fun t => t = g) g) τ (removeStmtFrom n k c g τ) := by
      intro τ c g hτE hstm hblocks
      refine ih hτE (fun e he => ?_) fun t ht => ?_
      · have hk := hgoto e he
        unfold kind at hk ⊢
        rwa [hstm]
      · rw [inside_of_blocks_nil hblocks] at ht
        exact List.mem_singleton.mp ht
    have hjumps := removeJumps_removal hrm hgoto hS
      (σ.edges.filter fun e => decide (e.1 ∉ σ.inside n s)).length hfilter
      (List.Subset.trans hfilter.edges hE)
    rw [removeStmtFrom]
    refine (hfilter.trans hjumps).trans (eraseStmt_removal (.inl rfl) fun e he hs => ?_)
    have hin := hjumps.edges he
    rw [List.mem_filter] at hin
    have hnot := hin.2
    rw [hs] at hnot
    simp only [mem_inside, not_true_eq_false, decide_false, Bool.false_eq_true] at hnot

theorem removeStmt_removal {S : ℕ → Prop} (hE : σ.edges ⊆ E)
    (hgoto : ∀ e ∈ E, (σ.kind e.1).blocks = []) (hS : ∀ t ∈ σ.inside n s, S t) :
    Removal (Falls E S s) σ (σ.removeStmt n b s) :=
  removeStmtFrom_removal hE hgoto hS

end Pruning

end EMI

end CLSmith
