import CLSmith.Divergence.Alike
/-!
# The rounds of a `for`

`ProcessEndStatementFor` processes the body again for as long as the merge marks
something new. Each such round takes something off a finite list of what is not
marked, so the loop ends, and states that are alike stay so. The round it stops
after need not be a fixpoint: the targets of pointers are never saved and never
compared, so a round may record one and be the last.
-/

namespace CLSmith

namespace Divergence

namespace Process

open Common

variable {V F B : Type} [DecidableEq F] [DecidableEq B]

/-! ## How deep the marking goes -/

theorem markViral_of_mem (scopeLevels : B → List B) (n : ℕ) {b : B} {marked : Finset B}
    (h : b ∈ marked) : markViral scopeLevels n b marked = marked := by
  cases n with
  | zero => rfl
  | succ n => rw [markViral, if_pos h]

theorem subset_markViral (scopeLevels : B → List B) :
    ∀ (n : ℕ) (b : B) (marked : Finset B), marked ⊆ markViral scopeLevels n b marked := by
  intro n
  induction n with
  | zero => exact fun _ marked => subset_refl marked
  | succ n ih =>
    intro b marked
    rw [markViral]
    split
    · exact subset_refl marked
    · have hfold : ∀ (l : List B) (m : Finset B),
          m ⊆ l.foldl (fun m branch => markViral scopeLevels n branch m) m := by
        intro l
        induction l with
        | nil => exact fun m => subset_refl m
        | cons c l ihl => exact fun m => (ih c m).trans (ihl _)
      exact (Finset.subset_insert b marked).trans (hfold _ _)

/-- **As many calls inside one another as blocks are unmarked** are enough. -/
theorem markViral_succ [Fintype B] (scopeLevels : B → List B) :
    ∀ (n : ℕ) (b : B) (marked : Finset B), (Finset.univ \ marked).card ≤ n →
      markViral scopeLevels (n + 1) b marked = markViral scopeLevels n b marked := by
  intro n
  induction n with
  | zero =>
    intro b marked hn
    have hempty : Finset.univ \ marked = ∅ := Finset.card_eq_zero.1 (by omega)
    have hb : b ∈ marked := Finset.sdiff_eq_empty_iff_subset.1 hempty (Finset.mem_univ b)
    rw [markViral_of_mem _ _ hb, markViral_of_mem _ _ hb]
  | succ n ih =>
    intro b marked hn
    by_cases hb : b ∈ marked
    · rw [markViral_of_mem _ _ hb, markViral_of_mem _ _ hb]
    · have hcard : (Finset.univ \ insert b marked).card ≤ n := by
        have hlt : (Finset.univ \ insert b marked).card < (Finset.univ \ marked).card := by
          refine Finset.card_lt_card (Finset.ssubset_iff_subset_ne.2 ⟨?_, fun heq => ?_⟩)
          · exact Finset.sdiff_subset_sdiff subset_rfl (Finset.subset_insert b marked)
          · have hmem : b ∈ Finset.univ \ insert b marked := by
              rw [heq]
              exact Finset.mem_sdiff.2 ⟨Finset.mem_univ b, hb⟩
            exact (Finset.mem_sdiff.1 hmem).2 (Finset.mem_insert_self b marked)
        omega
      -- Branches that are marked later see at least as many marks, so the bound holds along the
      -- list.
      have hfold : ∀ (l : List B) (m : Finset B), (Finset.univ \ m).card ≤ n →
          l.foldl (fun m branch => markViral scopeLevels (n + 1) branch m) m =
            l.foldl (fun m branch => markViral scopeLevels n branch m) m := by
        intro l
        induction l with
        | nil => exact fun _ _ => rfl
        | cons c l ihl =>
          intro m hm
          rw [List.foldl_cons, List.foldl_cons, ih c m hm]
          refine ihl _ (le_trans (Finset.card_le_card ?_) hm)
          exact Finset.sdiff_subset_sdiff subset_rfl (subset_markViral scopeLevels n c m)
      rw [markViral, if_neg hb, markViral, if_neg hb]
      exact hfold _ _ hcard

/-! ## What a round leaves -/

variable {d : Variables V} {f : F} {s t last : State V F B}

omit [DecidableEq B] in
/-- A state is like itself. -/
theorem AlikeOver.refl (d : Variables V) (f : F) (full : Prop) (s : State V F B) :
    AlikeOver d f full s.subBlockDivFinal s.subBlockDivFinal s.savedStates s.savedStates s s :=
  ⟨⟨rfl, .refl _ _, .refl _ _, rfl, rfl, rfl, rfl, rfl, rfl,
    ⟨fun _ => ∅, fun _ _ => by simp, fun _ _ => by simp⟩, fun _ => ⟨rfl, rfl⟩⟩, rfl, rfl⟩

omit [DecidableEq B] in
theorem SavedAlike.refl (d : Variables V) (sv : List (SavedState V F B)) : SavedAlike d sv sv :=
  ⟨List.forall₂_same.2 fun _ _ => ⟨rfl, rfl⟩, fun _ => .refl _ _, .refl _ _⟩

omit [DecidableEq B] in
/-- Processing gives back the saved states it found. -/
theorem Respects.savedStates {α : Type} {m : StateM (State V F B) α} (hm : Respects d f m)
    (s : State V F B) : (m.run s).2.savedStates = s.savedStates :=
  (hm False _ _ _ _ (.refl d s.savedStates) s s (.refl d f False s)).2.left

variable [Fintype V]

section

variable [DecidableEq V] [Fintype B]

/-- The round that the loop repeats for a `for` in the sub block `subBlock`. -/
def bodyRound (d : Variables V) (f : F) (returnLevel : ℕ) (subBlock : B) (test : Expr V F B)
    (incrLhs : Lhs V) (incrRhs : Expr V F B) (body : Block V F B) : StateM (State V F B) Bool :=
  forRound f subBlock body.block (processBlock d f returnLevel body)
    (isAssignmentDivergent d f incrLhs (isExpressionDivergent d f incrRhs)
      (getExpressionVariableReferences d f incrRhs))
    (isExpressionDivergent d f test)

/-- From `s` to `t` nothing that the analysis is about has changed. -/
structure Unchanged (d : Variables V) (f : F) (s t : State V F B) : Prop where
  divergentVars : ∀ v, isVariableDivergent d f t v = isVariableDivergent d f s v
  subBlockDiv : t.subBlockDiv = s.subBlockDiv
  sections : t.subBlockDivFinal = s.subBlockDivFinal
  targets : ∀ v, derefsTo d t v = derefsTo d s v

/-- **The loop ends in a fixpoint**: one more round from where it ends changes
nothing. -/
def RealFixpoint (d : Variables V) (f : F) (round : StateM (State V F B) Bool)
    (s : State V F B) : Prop :=
  ∃ last t, Exits round s last t ∧ Unchanged d f t (round.run t).2

variable (d f) (returnLevel : ℕ) (subBlock : B) (test : Expr V F B) (incrLhs : Lhs V)
  (incrRhs : Expr V F B) (body : Block V F B)

variable {d f returnLevel subBlock test incrLhs incrRhs body}

end

/-! ## A target recorded too late -/

/-- The variables of `int a = 0, d = tid, e = 0; int *p = &e; int i;`. -/
inductive LateVariable
  | a | d | e | p | i
deriving DecidableEq

instance : Fintype LateVariable where
  elems := {.a, .d, .e, .p, .i}
  complete v := by cases v <;> decide

def lateVariables : Variables LateVariable where
  isGlobal _ := false
  isArgument _ := false
  indirectLevel v := if v = .p then 1 else 0

/-- The maps once the declarations are processed. -/
def lateEntry : State LateVariable Unit Bool :=
  ((processBlockStart lateVariables () [(.a, .constant), (.d, .cl true), (.e, .constant),
    (.p, .variable .e (-1)), (.i, .constant)]).run (.start false)).2

/-- `for (...; i; i = i) { a = *p; p = &d; }`. -/
def lateRound : StateM (State LateVariable Unit Bool) Bool :=
  bodyRound lateVariables () 0 false (.variable .i 0) ⟨.i, 0⟩ (.variable .i 0)
    (.mk true [] [.assign ⟨.a, 0⟩ (.variable .p 1), .assign ⟨.p, 0⟩ (.variable .d (-1))])

/-- **No fixpoint**: the first round marks nothing and is the last; it has
recorded the divergent `d` as a target of `p`, so the next would mark `a`. -/
theorem not_realFixpoint_late : ¬ RealFixpoint lateVariables () lateRound lateEntry := by
  have hfirst : (lateRound.run lateEntry).1 = false := by decide
  rintro ⟨last, t, hexit, hunchanged⟩
  have hend : t = (lateRound.run lateEntry).2 := by
    cases hexit with
    | stop h => rw [h]
    | again h _ => exact absurd (hfirst.symm.trans (congrArg Prod.fst h)) (by simp)
  have ha := hunchanged.divergentVars .a
  rw [hend] at ha
  revert ha
  decide

end Process

end Divergence

end CLSmith
