import CLSmith.Common.Triple
import CLSmith.Divergence.Process
import Mathlib.Data.Set.Insert
/-!
# The branches a function is found to have

Each processing of a function adds to its `scope_levels_final_` the branches it
comes to. A function is processed more than once, and its loops are within one
processing, but what is there is not added again: whatever is processed, the
branches tracked of a block are the first of those it has, in their order, and
all of them once the block is processed.
-/

namespace CLSmith

namespace Divergence

namespace Process

open Common

variable {V F B : Type}

/-! ## The branches of a program -/

/-- The blocks a statement branches to. -/
def Statement.branchBlocks : Statement V F B → List B
  | .for _ _ _ _ _ body => [body.block]
  | .ifElse _ trueBranch none => [trueBranch.block]
  | .ifElse _ trueBranch (some falseBranch) => [trueBranch.block, falseBranch.block]
  | _ => []

/-- The blocks that the statements of a block branch to, in order. -/
def branchBlocks (stms : List (Statement V F B)) : List B := stms.flatMap Statement.branchBlocks

mutual

/-- A block and the blocks in it. -/
def Block.blocks : Block V F B → List B
  | .mk block _ stms => block :: blocksIn stms

def blocksIn : List (Statement V F B) → List B
  | [] => []
  | stm :: stms => stm.blocks ++ blocksIn stms

def Statement.blocks : Statement V F B → List B
  | .for _ _ _ _ _ body => body.blocks
  | .ifElse _ trueBranch none => trueBranch.blocks
  | .ifElse _ trueBranch (some falseBranch) => trueBranch.blocks ++ falseBranch.blocks
  | _ => []

end

mutual

/-- **The program is what `levels` says**: under one name there is one function, so
the branches of a block can be told by the name and the block. -/
def Expr.Fits (levels : F → B → List B) : Expr V F B → Prop
  | .assignment _ rhs => rhs.Fits levels
  | .funcall callee paramValue => callee.Fits levels ∧ fitsValues levels paramValue
  | .binary lhs rhs => lhs.Fits levels ∧ rhs.Fits levels
  | .unary operand => operand.Fits levels
  | .comma lhs rhs => lhs.Fits levels ∧ rhs.Fits levels
  | .constant => True
  | .variable _ _ => True
  | .cl _ => True

def fitsValues (levels : F → B → List B) : List (Expr V F B) → Prop
  | [] => True
  | value :: values => value.Fits levels ∧ fitsValues levels values

def Func.Fits (levels : F → B → List B) : Func V F B → Prop
  | .mk name _ _ body => body.Fits levels name

def Block.Fits (levels : F → B → List B) (f : F) : Block V F B → Prop
  | .mk block localVars stms =>
    levels f block = branchBlocks stms ∧ fitsVars levels localVars ∧ fitsStms levels f stms

def fitsVars (levels : F → B → List B) : List (V × Expr V F B) → Prop
  | [] => True
  | (_, init) :: rest => init.Fits levels ∧ fitsVars levels rest

def fitsStms (levels : F → B → List B) (f : F) : List (Statement V F B) → Prop
  | [] => True
  | stm :: stms => stm.Fits levels f ∧ fitsStms levels f stms

def Statement.Fits (levels : F → B → List B) (f : F) : Statement V F B → Prop
  | .assign _ rhs => rhs.Fits levels
  | .for _ initRhs test _ incrRhs body =>
    initRhs.Fits levels ∧ test.Fits levels ∧ incrRhs.Fits levels ∧ body.Fits levels f
  | .ifElse test trueBranch none => test.Fits levels ∧ trueBranch.Fits levels f
  | .ifElse test trueBranch (some falseBranch) =>
    test.Fits levels ∧ trueBranch.Fits levels f ∧ falseBranch.Fits levels f
  | .invokePrim => True
  | .invoke callee paramValue => callee.Fits levels ∧ fitsValues levels paramValue
  | .return var => var.Fits levels
  | .continue test _ => test.Fits levels
  | .break test _ => test.Fits levels

end

/-! ## The tables while they grow -/

/-- **The tables so far**, in the sub block `b`: of each block the branches tracked
are the first it has, and those that `known` lists for it are among them. -/
structure Tabled (levels : F → B → List B) (known : Set (F × B × List B)) (b : B)
    (s : State V F B) : Prop where
  below : ∀ g c, s.scopeLevelsFinal g c <+: levels g c
  tracked : ∀ g c l, (g, c, l) ∈ known → l <+: s.scopeLevelsFinal g c
  subBlock : s.subBlock = b

/-- All branches of the blocks `bs` of `f`. -/
def branchesOf (levels : F → B → List B) (f : F) (bs : List B) : Set (F × B × List B) :=
  { x | x.1 = f ∧ x.2.1 ∈ bs ∧ x.2.2 = levels f x.2.1 }

section

variable {levels : F → B → List B} {known known' : Set (F × B × List B)} {f g : F} {b c : B}
  {s t : State V F B}

/-- What leaves the tables as they are, in whatever sub block it ends. -/
theorem Tabled.same (h : Tabled levels known b s)
    (hlevels : t.scopeLevelsFinal = s.scopeLevelsFinal) (hsub : t.subBlock = c) :
    Tabled levels known c t :=
  ⟨by rw [hlevels]; exact h.below, by rw [hlevels]; exact h.tracked, hsub⟩

theorem Tabled.mono (h : Tabled levels known b s) (hknown : known' ⊆ known) :
    Tabled levels known' b s :=
  ⟨h.below, fun g c l hl => h.tracked g c l (hknown hl), h.subBlock⟩

theorem Tabled.insert_nil (h : Tabled levels known b s) (g : F) (c : B) :
    Tabled levels (insert (g, c, []) known) b s := by
  refine ⟨h.below, fun g' c' l hl => ?_, h.subBlock⟩
  rcases Set.mem_insert_iff.1 hl with heq | hl
  · obtain ⟨rfl, rfl, rfl⟩ : g' = g ∧ c' = c ∧ l = [] := by simpa using heq
    exact List.nil_prefix
  · exact h.tracked g' c' l hl

/-- Once all branches of a block are known to be tracked, they are what is tracked. -/
theorem Tabled.scopeLevelsFinal (h : Tabled levels known b s)
    (hmem : (g, c, levels g c) ∈ known) : s.scopeLevelsFinal g c = levels g c :=
  (h.below g c).eq_of_length_le (h.tracked g c _ hmem).length_le

theorem branchesOf_append (l l' : List B) :
    branchesOf levels f (l ++ l') = branchesOf levels f l ∪ branchesOf levels f l' := by
  ext x
  simp only [branchesOf, Set.mem_ofPred_eq, Set.mem_union, List.mem_append]
  tauto

theorem branchesOf_cons_subset {l bs : List B} (hl : levels f b = l) :
    branchesOf levels f (b :: bs) ∪ known ⊆ insert (f, b, l) (branchesOf levels f bs ∪ known) := by
  rintro ⟨g, c, l'⟩ (⟨hg, hc, hl'⟩ | hknown)
  · rcases List.mem_cons.1 hc with hc | hc
    · simp only at hg hc hl'
      subst hg hc hl'
      exact Set.mem_insert_iff.2 (.inl (by rw [hl]))
    · exact .inr (.inl ⟨hg, hc, hl'⟩)
  · exact .inr (.inr hknown)

/-- What lies between the branches `pre` of a block and all it has is `pre` itself, or
goes on with the next one. -/
theorem eq_or_prefix_next {pre post cur : List B} (hpre : pre <+: cur)
    (hcur : cur <+: pre ++ c :: post) : cur = pre ∨ pre ++ [c] <+: cur := by
  obtain ⟨rest, rfl⟩ := hpre
  cases rest with
  | nil => exact .inl (List.append_nil pre)
  | cons c' rest =>
    obtain ⟨rfl, -⟩ := List.cons_prefix_cons.1 ((List.prefix_append_right_inj pre).1 hcur)
    exact .inr ((List.prefix_append_right_inj pre).2
      (List.cons_prefix_cons.2 ⟨rfl, List.nil_prefix⟩))

variable [DecidableEq F] [DecidableEq B]

/-- A branch that is tracked is not tracked again. -/
theorem Tabled.again {l : List B} (h : Tabled levels known b s) {p : B}
    (hmem : (f, p, l) ∈ known) (hc : c ∈ l) :
    Tabled levels known b (getSubBlockForBranchFromBlock f p c s) := by
  rw [getSubBlockForBranchFromBlock, if_pos ((h.tracked f p l hmem).subset hc)]
  exact h

/-- A branch that is not tracked yet goes after those of its block. -/
theorem scopeLevelsFinal_track {p : B} (hc : c ∉ s.scopeLevelsFinal f p) (g : F) (b : B) :
    (getSubBlockForBranchFromBlock f p c s).scopeLevelsFinal g b =
      if g = f ∧ b = p then s.scopeLevelsFinal f p ++ [c] else s.scopeLevelsFinal g b := by
  rw [getSubBlockForBranchFromBlock, if_neg hc]
  by_cases hg : g = f
  · subst hg
    by_cases hb : b = p
    · subst hb
      simp
    · simp [hb]
  · simp [hg]

/-- **The next branch of a block** is tracked: it is so already, or what is tracked
is just what is known, and the branch goes after it. -/
theorem Tabled.track {p : B} {pre post : List B} (h : Tabled levels (insert (f, p, pre) known) b s)
    (hlevels : levels f p = pre ++ c :: post) (hnodup : (levels f p).Nodup) :
    Tabled levels (insert (f, p, pre ++ [c]) known) b (getSubBlockForBranchFromBlock f p c s) := by
  have hold : ∀ g' c' l, (g', c', l) ∈ known → l <+: s.scopeLevelsFinal g' c' :=
    fun g' c' l hl => h.tracked g' c' l (Set.mem_insert_of_mem _ hl)
  rw [hlevels] at hnodup
  rcases eq_or_prefix_next (h.tracked f p pre (Set.mem_insert _ _)) (hlevels ▸ h.below f p)
    with heq | hnext
  · have hc : c ∉ s.scopeLevelsFinal f p := by
      rw [heq]
      exact fun hmem => List.disjoint_of_nodup_append hnodup hmem List.mem_cons_self
    refine ⟨fun g' c' => ?_, fun g' c' l hl => ?_, ?_⟩
    · rw [scopeLevelsFinal_track hc]
      split
      · next heqs =>
        obtain ⟨rfl, rfl⟩ := heqs
        rw [heq, hlevels]
        exact (List.prefix_append_right_inj pre).2 (List.cons_prefix_cons.2 ⟨rfl, List.nil_prefix⟩)
      · exact h.below g' c'
    · rw [scopeLevelsFinal_track hc]
      rcases Set.mem_insert_iff.1 hl with hlast | hknown
      · obtain ⟨rfl, rfl, rfl⟩ : g' = f ∧ c' = p ∧ l = pre ++ [c] := by simpa using hlast
        rw [if_pos ⟨rfl, rfl⟩, heq]
      · split
        · next heqs =>
          obtain ⟨rfl, rfl⟩ := heqs
          exact (hold _ _ l hknown).trans (List.prefix_append _ _)
        · exact hold g' c' l hknown
    · rw [getSubBlockForBranchFromBlock, if_neg hc]
      exact h.subBlock
  · rw [getSubBlockForBranchFromBlock, if_pos (hnext.subset (by simp))]
    refine ⟨h.below, fun g' c' l hl => ?_, h.subBlock⟩
    rcases Set.mem_insert_iff.1 hl with hlast | hknown
    · obtain ⟨rfl, rfl, rfl⟩ : g' = f ∧ c' = p ∧ l = pre ++ [c] := by simpa using hlast
      exact hnext
    · exact hold g' c' l hknown

end

/-! ## What leaves the tables as they are -/

/-- **The tables so far are kept**, whatever is known of them, and the sub block. -/
def Keeps {α : Type} (levels : F → B → List B) (m : StateM (State V F B) α) : Prop :=
  ∀ known b, Triple (Tabled levels known b) m (Tabled levels known b)

namespace Keeps

variable {levels : F → B → List B} {α β : Type} {m n : StateM (State V F B) α}

theorem pure (a : α) : Keeps levels (Pure.pure a : StateM (State V F B) α) :=
  fun _ _ => .pure a

theorem bind {k : α → StateM (State V F B) β} (hm : Keeps levels m)
    (hk : ∀ a, Keeps levels (k a)) : Keeps levels (m >>= k) :=
  fun known b => .bind (hm known b) fun a => hk a known b

theorem reads (g : State V F B → α) : Keeps levels (Common.reads g) := fun _ _ => .reads g

theorem modify {g : State V F B → State V F B}
    (hlevels : ∀ s, (g s).scopeLevelsFinal = s.scopeLevelsFinal)
    (hsub : ∀ s, (g s).subBlock = s.subBlock) : Keeps levels (modify g) :=
  fun _ _ => .modify fun s h => h.same (hlevels s) ((hsub s).trans h.subBlock)

theorem ite {c : Prop} [Decidable c] (hm : Keeps levels m) (hn : Keeps levels n) :
    Keeps levels (if c then m else n) :=
  fun known b => .ite (hm known b) (hn known b)

theorem of_tabled {D : Set (F × B × List B)}
    (h : ∀ known b, Triple (Tabled levels known b) m (Tabled levels (D ∪ known) b)) :
    Keeps levels m :=
  fun known b => (h known b).imp (fun _ h => h) fun _ h => h.mono Set.subset_union_right

/-- A statement without branches adds nothing. -/
theorem noBranch {f : F} {b : B} {pre : List B} {known : Set (F × B × List B)}
    (h : Keeps levels m) : Triple (Tabled levels (insert (f, b, pre) known) b) m
      (Tabled levels (insert (f, b, pre ++ []) (branchesOf levels f [] ∪ known)) b) := by
  have hnone : branchesOf levels f [] = ∅ := by
    ext x
    simp [branchesOf]
  rw [List.append_nil, hnone, Set.empty_union]
  exact h _ b

end Keeps

/-- Once the statements of a block are through, its branches are known as well. -/
theorem tabled_body {levels : F → B → List B} {f : F} {b : B} {stms : List (Statement V F B)}
    {m : StateM (State V F B) Unit} (hb : levels f b = branchBlocks stms)
    (h : ∀ known, Triple (Tabled levels (insert (f, b, []) known) b) m
      (Tabled levels (insert (f, b, [] ++ branchBlocks stms)
        (branchesOf levels f (blocksIn stms) ∪ known)) b)) (known : Set (F × B × List B)) :
    Triple (Tabled levels (insert (f, b, []) known) b) m
      (Tabled levels (branchesOf levels f (b :: blocksIn stms) ∪ known) b) :=
  (h known).imp (fun _ h => h) fun _ h => h.mono (branchesOf_cons_subset hb)

section

variable {levels : F → B → List B} {d : Variables V} {f : F} [DecidableEq F] [DecidableEq V]

theorem keeps_dereference : ∀ (derefLevel : ℕ) (derefVars : Finset V),
    Keeps (B := B) levels (dereference d f derefLevel derefVars) := by
  intro derefLevel
  induction derefLevel with
  | zero => exact fun _ => .pure _
  | succ derefLevel ih =>
    intro derefVars
    exact .bind (.reads _) fun _ => .bind (.reads _) fun next =>
      .bind (.modify (fun _ => rfl) fun _ => rfl) fun _ => .bind (ih next) fun _ => .pure _

theorem keeps_isAssignmentDivergent (lhs : Lhs V) {value : StateM (State V F B) Bool}
    {references : StateM (State V F B) (Bool × Finset V)} (hvalue : Keeps levels value)
    (hrefs : Keeps levels references) :
    Keeps levels (isAssignmentDivergent d f lhs value references) := by
  refine .bind (keeps_dereference _ _) fun lhsDerefs => .ite ?_ ?_
  · exact .bind hrefs fun _ => .bind (.reads _) fun _ =>
      .bind (.modify (fun _ => rfl) fun _ => rfl) fun _ =>
        .bind (.modify (fun _ => rfl) fun _ => rfl) fun _ => .pure _
  · refine .bind hvalue fun assDiv => .bind (.reads _) fun divergent => ?_
    exact .ite (.bind (.modify (fun _ => rfl) fun _ => rfl) fun _ => .pure _) (.pure _)

/-- **A call** keeps the tables, and adds what the statements of the callee add. -/
theorem tabled_isFunctionCallDivergent [DecidableEq B] {name : F} {body : B}
    {D : Set (F × B × List B)} {processBlockStart processSteps : StateM (State V F B) Unit}
    (param : List V) (parameters : List Bool) (hstart : Keeps levels processBlockStart)
    (hsteps : ∀ known, Triple (Tabled levels (insert (name, body, []) known) body) processSteps
      (Tabled levels (D ∪ known) body)) (known : Set (F × B × List B)) (b : B) :
    Triple (Tabled levels known b)
      (isFunctionCallDivergent d f name param body parameters processBlockStart processSteps)
      (Tabled levels (D ∪ known) b) := by
  intro s h
  have hcallee : Triple (Tabled levels known body) (do
      processBlockStart
      modify (setDivergent body s.divergent)
      processSteps
      modify (processFinalise name) : StateM (State V F B) Unit)
      (Tabled levels (D ∪ known) body) := by
    refine .bind (hstart known body) fun _ => .bind (.modify fun t ht => ?_) fun _ =>
      .bind (hsteps known) fun _ => .modify fun t ht => ?_
    · exact (ht.same (t := setDivergent body s.divergent t) rfl ht.subBlock).insert_nil name body
    · exact ht.same rfl ht.subBlock
  have hbegin : Tabled levels known body
      { s with toFunctionState := processStart d f name param parameters body s } :=
    h.same rfl rfl
  exact (hcallee _ hbegin).same rfl h.subBlock

end

/-! ## Statements -/

section

variable {levels : F → B → List B} {f : F} {known : Set (F × B × List B)} {b c p : B}
  {pre post : List B} [DecidableEq B]

theorem keeps_processStatementJump [Fintype B] {test : StateM (State V F B) Bool}
    (htest : Keeps levels test) (loopBlk : B) :
    Keeps levels (processStatementJump f test loopBlk) :=
  .bind htest fun _ => .bind (.reads _) fun _ =>
    .ite (.modify (fun _ => rfl) fun _ => rfl) (.pure _)

theorem keeps_processStatementReturn [DecidableEq V] [Fintype B] (returnLevel : ℕ)
    {value : StateM (State V F B) Bool}
    {references : StateM (State V F B) (Bool × Finset V)} (hvalue : Keeps levels value)
    (hrefs : Keeps levels references) :
    Keeps levels (processStatementReturn f returnLevel value references) := by
  have hreturn : Keeps levels (if returnLevel = 0 then do
        let div ← value
        modify fun s => { s with divergentValue := s.divergentValue || (div || s.divergent) }
      else do
        let refs ← references
        modify fun s =>
          { s with
            divergentValue := s.divergentValue || refs.1 || s.divergent
            returnDerefsTo := s.returnDerefsTo ∪ refs.2 } : StateM (State V F B) Unit) :=
    .ite (.bind hvalue fun _ => .modify (fun _ => rfl) fun _ => rfl)
      (.bind hrefs fun _ => .modify (fun _ => rfl) fun _ => rfl)
  exact .bind (.reads _) fun _ => .ite
    (.bind (.reads _) fun _ => .bind (.modify (fun _ => rfl) fun _ => rfl) fun _ => hreturn) hreturn

theorem keeps_orSubBlockDiv (c : B) (div : Bool) :
    Keeps (V := V) (F := F) levels (modify (orSubBlockDiv c div)) := by
  refine .modify (fun s => ?_) fun s => ?_ <;> cases div <;> rfl

/-- A save and its merge are about other tables. -/
theorem tabled_onSavedState [Fintype V] {known' : Set (F × B × List B)}
    {m : StateM (State V F B) Unit}
    (hm : Triple (Tabled levels known b) m (Tabled levels known' c)) :
    Triple (Tabled levels known b) (onSavedState f m) (Tabled levels known' c) := by
  refine .bind (.modify fun s h => h.same (t := pushState f s) rfl h.subBlock) fun _ =>
    .bind hm fun _ => fun s h => ?_
  have hpop : (popState.run s).2.scopeLevelsFinal = s.scopeLevelsFinal ∧
      (popState.run s).2.subBlock = s.subBlock := by
    change (popState s).2.scopeLevelsFinal = _ ∧ (popState s).2.subBlock = _
    unfold popState
    cases s.savedStates <;> exact ⟨rfl, rfl⟩
  exact h.same hpop.1 (hpop.2.trans h.subBlock)

/-- The false branch is processed beside the true one. -/
theorem tabled_processFalseBranch {e : B} {E : Set (F × B × List B)}
    {m : StateM (State V F B) Unit}
    (hm : Triple (Tabled levels known e) m (Tabled levels (E ∪ known) e)) :
    Triple (Tabled levels known c) (processFalseBranch f e m) (Tabled levels (E ∪ known) e) := by
  intro s h
  have hend := hm (enterBlock e (decide (e ∈ (cleared s).subBlockDiv)) (cleared s))
    (h.same rfl rfl)
  exact hend.same rfl hend.subBlock

variable [DecidableEq F]

/-- The branch of a statement of `p` is tracked, whatever sub block is processed. -/
theorem tabled_track (hlevels : levels f p = pre ++ c :: post) (hnodup : (levels f p).Nodup) :
    Triple (Tabled (V := V) levels (insert (f, p, pre) known) b)
      (modify (getSubBlockForBranchFromBlock f p c))
      (Tabled levels (insert (f, p, pre ++ [c]) known) b) :=
  .modify fun _ h => h.track hlevels hnodup

/-- **One round of a `for`**, whose branch is tracked. -/
theorem tabled_forRound [Fintype V] {D : Set (F × B × List B)} {l : List B}
    {processBody : StateM (State V F B) Unit} {incr test : StateM (State V F B) Bool}
    (hbody : Triple (Tabled levels known c) processBody (Tabled levels (D ∪ known) c))
    (hincr : Keeps levels incr) (htest : Keeps levels test) (hmem : (f, p, l) ∈ known)
    (hc : c ∈ l) :
    Triple (Tabled levels known b) (forRound f p c processBody incr test)
      (Tabled levels (D ∪ known) c) := by
  refine .bind (.reads _) fun div => tabled_onSavedState ?_
  refine .bind (.modify fun s h => h.same (t := enterBlock c div s) rfl rfl) fun _ =>
    .bind hbody fun _ => .bind (hincr _ c) fun _ =>
      .bind (.modify fun s h => h.same (t := { s with subBlock := c }) rfl rfl) fun _ => ?_
  refine .bind (.modify fun s h => h.again (Set.mem_union_right D hmem) hc) fun _ =>
    .bind (htest _ c) fun _ => .bind (.reads _) fun _ => keeps_orSubBlockDiv _ _ _ c

/-- **A `for`**: its branch comes next, and its rounds all add the same. -/
theorem tabled_processStatementFor [Fintype V] [Fintype B] {D : Set (F × B × List B)}
    {processBody : StateM (State V F B) Unit} {init test incr : StateM (State V F B) Bool}
    (hinit : Keeps levels init) (htest : Keeps levels test) (hincr : Keeps levels incr)
    (hbody : ∀ known, Triple (Tabled levels known c) processBody (Tabled levels (D ∪ known) c))
    (hlevels : levels f b = pre ++ c :: post) (hnodup : (levels f b).Nodup) :
    Triple (Tabled levels (insert (f, b, pre) known) b)
      (processStatementFor f init test c processBody incr)
      (Tabled levels (insert (f, b, pre ++ [c]) (D ∪ known)) b) := by
  refine .bind (hinit _ b) fun _ => .reads_bind (fun s h => h.subBlock) ?_
  refine .bind (tabled_track hlevels hnodup) fun _ => .bind (htest _ b) fun _ =>
    .bind (.reads _) fun _ => .bind (keeps_orSubBlockDiv _ _ _ b) fun _ => ?_
  have hround : ∀ b' known', (f, b, pre ++ [c]) ∈ known' →
      Triple (Tabled levels known' b') (forRound f b c processBody incr test)
        (Tabled levels (D ∪ known') c) := fun b' known' hmem =>
    tabled_forRound (hbody known') hincr htest hmem (by simp)
  refine .bind (Q := Tabled levels (D ∪ insert (f, b, pre ++ [c]) known) c) ?_ fun _ =>
    .modify fun s h => ?_
  · refine .whileChange_succ (hround b _ (Set.mem_insert _ _)) ?_ _
    have hmem := Set.mem_union_right D (Set.mem_insert (f, b, pre ++ [c]) known)
    exact (hround c _ hmem).imp (fun _ h => h) fun _ h => h.mono Set.subset_union_right
  · refine (h.same (t := leaveBlock b s) rfl rfl).mono ?_
    rw [Set.union_insert]

/-- **An `if`**: its branches come next, one after the other. -/
theorem tabled_processStatementIf [Fintype V] {D E : Set (F × B × List B)}
    {test : StateM (State V F B) Bool} {processTrue : StateM (State V F B) Unit}
    {falseBranch : Option (B × StateM (State V F B) Unit)} (htest : Keeps levels test)
    (htrue : ∀ known, Triple (Tabled levels known c) processTrue (Tabled levels (D ∪ known) c))
    (hfalse : ∀ branch ∈ falseBranch, ∀ known, Triple (Tabled levels known branch.1) branch.2
      (Tabled levels (E ∪ known) branch.1))
    (hE : falseBranch = none → E = ∅)
    (hlevels : levels f b = pre ++ (c :: (falseBranch.map Prod.fst).toList ++ post))
    (hnodup : (levels f b).Nodup) :
    Triple (Tabled levels (insert (f, b, pre) known) b)
      (processStatementIf f test c processTrue falseBranch)
      (Tabled levels (insert (f, b, pre ++ c :: (falseBranch.map Prod.fst).toList)
        (D ∪ E ∪ known)) b) := by
  -- what comes after the branches are tracked
  have hbranches : ∀ l, Triple (Tabled levels (insert (f, b, l) known) b) (do
      let branchBlockDiv ← Common.reads fun s : State V F B => decide (c ∈ s.subBlockDiv)
      let _ ← onSavedState f do
        modify (enterBlock c branchBlockDiv)
        processTrue
        falseBranch.elim (Pure.pure ()) fun branch => processFalseBranch f branch.1 branch.2
      modify (leaveBlock b))
      (Tabled levels (insert (f, b, l) (D ∪ E ∪ known)) b) := by
    intro l
    refine .bind (.reads _) fun div => .bind (Q := fun s =>
      ∃ e, Tabled levels (E ∪ (D ∪ insert (f, b, l) known)) e s) ?_ fun _ =>
        .modify fun s ⟨e, h⟩ => (h.same (t := leaveBlock b s) rfl rfl).mono ?_
    · have henter : Triple (Tabled levels (insert (f, b, l) known) b)
          (modify (enterBlock c div) : StateM (State V F B) Unit)
          (Tabled levels (insert (f, b, l) known) c) := .modify fun s h => h.same rfl rfl
      cases falseBranch with
      | none =>
        refine (tabled_onSavedState (.bind henter fun _ => .bind (htrue _) fun _ => .pure _)).imp
          (fun _ h => h) fun s h => ⟨c, ?_⟩
        rwa [hE rfl, Set.empty_union]
      | some branch =>
        exact (tabled_onSavedState (.bind henter fun _ => .bind (htrue _) fun _ =>
          tabled_processFalseBranch (hfalse branch rfl _))).imp (fun _ h => h) fun s h => ⟨_, h⟩
    · rw [Set.union_insert, Set.union_insert, ← Set.union_assoc, Set.union_comm E D]
  refine .reads_bind (fun s h => h.subBlock) ?_
  refine .bind (tabled_track hlevels hnodup) fun _ => .bind (htest _ b) fun _ =>
    .bind (.reads _) fun divergent => .bind (keeps_orSubBlockDiv _ _ _ b) fun _ => ?_
  cases falseBranch with
  | none => exact hbranches _
  | some branch =>
    have hnext : levels f b = (pre ++ [c]) ++ branch.1 :: post := by
      rw [hlevels]
      simp
    refine .bind (tabled_track hnext hnodup) fun _ =>
      .bind (keeps_orSubBlockDiv _ _ _ b) fun _ => ?_
    have hlist : pre ++ [c] ++ [branch.1] =
        pre ++ c :: (Option.map Prod.fst (some branch)).toList := by
      simp
    rw [hlist]
    exact hbranches _

end

/-! ## The walk -/

section

variable {levels : F → B → List B} {d : Variables V} [DecidableEq F] [DecidableEq V]
  [DecidableEq B] [Fintype V] [Fintype B]

mutual

theorem keeps_isExpressionDivergent (hlevels : ∀ g c, (levels g c).Nodup) (f : F) :
    ∀ e : Expr V F B, e.Fits levels → Keeps levels (isExpressionDivergent d f e)
  | .constant, _ => .pure _
  | .assignment lhs rhs, h =>
    keeps_isAssignmentDivergent lhs (keeps_isExpressionDivergent hlevels f rhs h)
      (keeps_getExpressionVariableReferences hlevels f rhs h)
  | .variable _ _, _ =>
    .bind (keeps_dereference _ _) fun _ => .bind (.reads _) fun _ => .pure _
  | .funcall callee paramValue, h =>
    .bind (keeps_assignParameters hlevels f callee.param paramValue h.2) fun parameters =>
      .bind (.of_tabled (tabled_processWithContext hlevels f callee h.1 parameters)) fun _ =>
        .pure _
  | .binary lhs rhs, h =>
    .bind (keeps_isExpressionDivergent hlevels f lhs h.1) fun _ =>
      .bind (keeps_isExpressionDivergent hlevels f rhs h.2) fun _ => .pure _
  | .unary operand, h => keeps_isExpressionDivergent hlevels f operand h
  | .comma lhs rhs, h =>
    .bind (keeps_isExpressionDivergent hlevels f lhs h.1) fun _ =>
      keeps_isExpressionDivergent hlevels f rhs h.2
  | .cl _, _ => .pure _

theorem keeps_getExpressionVariableReferences (hlevels : ∀ g c, (levels g c).Nodup) (f : F) :
    ∀ e : Expr V F B, e.Fits levels → Keeps levels (getExpressionVariableReferences d f e)
  | .constant, _ => .pure _
  | .comma lhs rhs, h =>
    .bind (keeps_isExpressionDivergent hlevels f lhs h.1) fun _ =>
      keeps_getExpressionVariableReferences hlevels f rhs h.2
  | .assignment lhs rhs, h =>
    .bind (keeps_isAssignmentDivergent lhs (keeps_isExpressionDivergent hlevels f rhs h)
      (keeps_getExpressionVariableReferences hlevels f rhs h)) fun _ => keeps_dereference _ _
  | .funcall callee paramValue, h =>
    .bind (keeps_assignParameters hlevels f callee.param paramValue h.2) fun parameters =>
      .of_tabled (tabled_processWithContext hlevels f callee h.1 parameters)
  | .variable _ _, _ => .ite (.pure _) (keeps_dereference _ _)
  | .binary _ _, _ => .pure _
  | .unary _, _ => .pure _
  | .cl _, _ => .pure _

theorem keeps_assignParameters (hlevels : ∀ g c, (levels g c).Nodup) (f : F) :
    ∀ (params : List V) (values : List (Expr V F B)), fitsValues levels values →
      Keeps levels (assignParameters d f params values)
  | param :: params, value :: values, h =>
    .bind (keeps_isAssignmentDivergent ⟨param, 0⟩ (keeps_isExpressionDivergent hlevels f value h.1)
      (keeps_getExpressionVariableReferences hlevels f value h.1)) fun _ =>
        .bind (keeps_assignParameters hlevels f params values h.2) fun _ => .pure _
  | [], [], _ => .pure _
  | [], _ :: _, _ => .pure _
  | _ :: _, [], _ => .pure _

/-- **A call**: all branches of the callee are tracked. -/
theorem tabled_processWithContext (hlevels : ∀ g c, (levels g c).Nodup) (f : F) :
    ∀ callee : Func V F B, callee.Fits levels → ∀ (parameters : List Bool)
      (known : Set (F × B × List B)) (b : B), Triple (Tabled levels known b)
        (processWithContext d f callee parameters)
        (Tabled levels (branchesOf levels callee.name callee.body.blocks ∪ known) b)
  | .mk name returnLevel param (.mk body localVars stms), h, parameters =>
    tabled_isFunctionCallDivergent param parameters
      (keeps_processBlockStart hlevels name localVars h.2.1)
      (tabled_body h.1 fun known => tabled_processSteps hlevels name returnLevel stms h.2.2 body []
        [] known (by rw [h.1, List.append_nil, List.nil_append]))

theorem keeps_processBlockStart (hlevels : ∀ g c, (levels g c).Nodup) (f : F) :
    ∀ localVars : List (V × Expr V F B), fitsVars levels localVars →
      Keeps levels (processBlockStart d f localVars)
  | [], _ => .pure _
  | (var, init) :: rest, h =>
    .bind (keeps_isAssignmentDivergent ⟨var, 0⟩ (keeps_isExpressionDivergent hlevels f init h.1)
      (keeps_getExpressionVariableReferences hlevels f init h.1)) fun _ =>
        keeps_processBlockStart hlevels f rest h.2

theorem tabled_processBlock (hlevels : ∀ g c, (levels g c).Nodup) (f : F) (returnLevel : ℕ) :
    ∀ block : Block V F B, block.Fits levels f → ∀ known : Set (F × B × List B),
      Triple (Tabled levels known block.block) (processBlock d f returnLevel block)
        (Tabled levels (branchesOf levels f block.blocks ∪ known) block.block)
  | .mk block localVars stms, h, known =>
    .bind (keeps_processBlockStart hlevels f localVars h.2.1 known block) fun _ =>
      (tabled_body h.1 (fun known => tabled_processSteps hlevels f returnLevel stms h.2.2 block []
        [] known (by rw [h.1, List.append_nil, List.nil_append])) known).imp
          (fun _ hs => hs.insert_nil f block) fun _ hs => hs

theorem tabled_processSteps (hlevels : ∀ g c, (levels g c).Nodup) (f : F) (returnLevel : ℕ) :
    ∀ stms : List (Statement V F B), fitsStms levels f stms →
      ∀ (b : B) (pre post : List B) (known : Set (F × B × List B)),
        levels f b = pre ++ (branchBlocks stms ++ post) →
        Triple (Tabled levels (insert (f, b, pre) known) b) (processSteps d f returnLevel stms)
          (Tabled levels (insert (f, b, pre ++ branchBlocks stms)
            (branchesOf levels f (blocksIn stms) ∪ known)) b)
  | [], _, _, _, _, _, _ => (Keeps.pure ()).noBranch
  | stm :: stms, h, b, pre, post, known, hb => by
    have hsplit : levels f b = pre ++ (stm.branchBlocks ++ (branchBlocks stms ++ post)) := by
      rw [hb, branchBlocks, List.flatMap_cons, ← List.append_assoc stm.branchBlocks]
      rfl
    have hstm : Triple _ (processStep d f returnLevel stm) _ :=
      tabled_processStep hlevels f returnLevel stm h.1 b pre _ known hsplit
    have hstms : Triple _ (processSteps d f returnLevel stms) _ :=
      tabled_processSteps hlevels f returnLevel stms h.2 b (pre ++ stm.branchBlocks) post
        (branchesOf levels f stm.blocks ∪ known) (by rw [hsplit, List.append_assoc])
    rw [processSteps]
    refine .bind hstm fun _ => hstms.imp (fun _ h => h) fun _ h => h.mono ?_
    rw [blocksIn, branchesOf_append, branchBlocks, List.flatMap_cons, List.append_assoc,
      ← Set.union_assoc, Set.union_comm (branchesOf levels f (blocksIn stms))]
    rfl

/-- **A statement**: its branches are tracked next, and all branches in them. -/
theorem tabled_processStep (hlevels : ∀ g c, (levels g c).Nodup) (f : F) (returnLevel : ℕ) :
    ∀ stm : Statement V F B, stm.Fits levels f →
      ∀ (b : B) (pre post : List B) (known : Set (F × B × List B)),
        levels f b = pre ++ (stm.branchBlocks ++ post) →
        Triple (Tabled levels (insert (f, b, pre) known) b) (processStep d f returnLevel stm)
          (Tabled levels (insert (f, b, pre ++ stm.branchBlocks)
            (branchesOf levels f stm.blocks ∪ known)) b)
  | .assign lhs rhs, h, _, _, _, _, _ =>
    (Keeps.bind (keeps_isAssignmentDivergent lhs (keeps_isExpressionDivergent hlevels f rhs h)
      (keeps_getExpressionVariableReferences hlevels f rhs h)) fun _ => .pure _).noBranch
  | .for initLhs initRhs test incrLhs incrRhs body, h, b, _, _, _, hb =>
    tabled_processStatementFor
      (keeps_isAssignmentDivergent initLhs (keeps_isExpressionDivergent hlevels f initRhs h.1)
        (keeps_getExpressionVariableReferences hlevels f initRhs h.1))
      (keeps_isExpressionDivergent hlevels f test h.2.1)
      (keeps_isAssignmentDivergent incrLhs (keeps_isExpressionDivergent hlevels f incrRhs h.2.2.1)
        (keeps_getExpressionVariableReferences hlevels f incrRhs h.2.2.1))
      (tabled_processBlock hlevels f returnLevel body h.2.2.2) hb (hlevels f b)
  | .ifElse test trueBranch none, h, b, pre, post, known, hb => by
    have hif : Triple _ (processStatementIf f (isExpressionDivergent d f test) trueBranch.block
        (processBlock d f returnLevel trueBranch) none)
        (Tabled levels (insert (f, b, pre ++ [trueBranch.block])
          (branchesOf levels f trueBranch.blocks ∪ ∅ ∪ known)) b) :=
      tabled_processStatementIf (keeps_isExpressionDivergent hlevels f test h.1)
        (tabled_processBlock hlevels f returnLevel trueBranch h.2)
        (fun branch hbranch => absurd hbranch (Option.not_mem_none branch)) (fun _ => rfl) hb
        (hlevels f b)
    rw [Set.union_empty] at hif
    rw [processStep]
    exact hif
  | .ifElse test trueBranch (some falseBranch), h, b, pre, post, known, hb => by
    have hif : Triple (Tabled levels (insert (f, b, pre) known) b)
        (processStatementIf f (isExpressionDivergent d f test) trueBranch.block
          (processBlock d f returnLevel trueBranch)
          (some (falseBranch.block, processBlock d f returnLevel falseBranch)))
        (Tabled levels (insert (f, b, pre ++ [trueBranch.block, falseBranch.block])
          (branchesOf levels f trueBranch.blocks ∪ branchesOf levels f falseBranch.blocks ∪
            known)) b) := by
      refine tabled_processStatementIf (keeps_isExpressionDivergent hlevels f test h.1)
        (tabled_processBlock hlevels f returnLevel trueBranch h.2.1) (fun branch hbranch => ?_)
        (fun hnone => absurd hnone (Option.some_ne_none _)) hb (hlevels f b)
      obtain rfl := Option.mem_some.1 hbranch
      exact tabled_processBlock hlevels f returnLevel falseBranch h.2.2
    rw [← branchesOf_append] at hif
    rw [processStep]
    exact hif
  | .invokePrim, _, _, _, _, _, _ => (Keeps.pure ()).noBranch
  | .invoke callee paramValue, h, _, _, _, _, _ =>
    (Keeps.bind (keeps_assignParameters hlevels f callee.param paramValue h.2) fun parameters =>
      .bind (.of_tabled (tabled_processWithContext hlevels f callee h.1 parameters)) fun _ =>
        .pure _).noBranch
  | .return var, h, _, _, _, _, _ =>
    (keeps_processStatementReturn returnLevel (keeps_isExpressionDivergent hlevels f var h)
      (keeps_getExpressionVariableReferences hlevels f var h)).noBranch
  | .continue test loopBlk, h, _, _, _, _, _ =>
    (keeps_processStatementJump (keeps_isExpressionDivergent hlevels f test h) loopBlk).noBranch
  | .break test loopBlk, h, _, _, _, _, _ =>
    (keeps_processStatementJump (keeps_isExpressionDivergent hlevels f test h) loopBlk).noBranch

end

/-! ## The entry function -/

omit [DecidableEq F] [DecidableEq V] [DecidableEq B] [Fintype V] [Fintype B] in
theorem tabled_start (b : B) : Tabled (V := V) levels ∅ b (.start b) :=
  ⟨fun _ _ => List.nil_prefix, fun _ _ _ hl => absurd hl (Set.notMem_empty _), rfl⟩

/-- **The entry function**: once it is processed, all its branches are tracked. -/
theorem tabled_processEntryFunction (hlevels : ∀ g c, (levels g c).Nodup)
    {globalVariables : List (V × Expr V F B)} {function : Func V F B}
    (hglobals : fitsVars levels globalVariables) (hfits : function.Fits levels) (b : B) :
    Tabled levels (branchesOf levels function.name function.body.blocks ∪ ∅) b
      ((processEntryFunction d globalVariables function).run (.start b)).2 :=
  Triple.bind (keeps_processBlockStart hlevels function.name globalVariables hglobals ∅ b)
    (fun _ => .bind (tabled_processWithContext hlevels function.name function hfits [] ∅ b)
      fun _ => .pure _) _ (tabled_start b)

end

end Process

end Divergence

end CLSmith
