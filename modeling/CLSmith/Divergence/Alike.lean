import CLSmith.Divergence.Process
import Mathlib.Data.Fintype.Option
/-!
# States the analysis cannot tell apart

Two states are alike for the processing of a function when every lookup of a
variable answers the same in both, level by level, and what else the processing
reads is the same. An entry that says convergent may be there in one and
missing in the other where the lookup further out says so too: the merges leave
such entries behind. Processing the same statements from alike states marks and
records the same and leaves alike states.
-/

namespace CLSmith

namespace Divergence

namespace Process

open Common

variable {V F B : Type}

/-! ## Levels of maps -/

/-- Maps marking the same variables at each level, with lookups from each level
outwards that answer the same for the variables `p` is about. -/
inductive SameLevels (p : V → Prop) : List (V → Option Bool) → List (V → Option Bool) → Prop
  | nil : SameLevels p [] []
  | cons {m m' : V → Option Bool} {ms ms' : List (V → Option Bool)}
      (hmark : ∀ v, m v = some true ↔ m' v = some true)
      (hsearch : ∀ v, p v → searchMap v (m :: ms) = searchMap v (m' :: ms'))
      (h : SameLevels p ms ms') : SameLevels p (m :: ms) (m' :: ms')

namespace SameLevels

variable {p : V → Prop} {m m' n n' : V → Option Bool} {ms ms' : List (V → Option Bool)}

theorem refl (p : V → Prop) : ∀ ms : List (V → Option Bool), SameLevels p ms ms := by
  intro ms
  induction ms with
  | nil => exact .nil
  | cons m ms ih => exact .cons (fun _ => Iff.rfl) (fun _ _ => rfl) ih

theorem search (h : SameLevels p ms ms') {v : V} (hv : p v) :
    searchMap v ms = searchMap v ms' := by
  cases h with
  | nil => rfl
  | cons _ hsearch _ => exact hsearch v hv

theorem mark (h : SameLevels p (m :: ms) (m' :: ms')) (v : V) :
    m v = some true ↔ m' v = some true := by
  cases h with
  | cons hmark _ _ => exact hmark v

theorem tail (h : SameLevels p (m :: ms) (m' :: ms')) : SameLevels p ms ms' := by
  cases h with
  | cons _ _ h => exact h

/-- Maps on top that agree where they are not the maps of before. -/
theorem change (h : SameLevels p (m :: ms) (m' :: ms'))
    (hn : ∀ v, (n v = m v ∧ n' v = m' v) ∨ n v = n' v) :
    SameLevels p (n :: ms) (n' :: ms') := by
  refine .cons (fun v => ?_) (fun v hv => ?_) h.tail
  · rcases hn v with ⟨hm, hm'⟩ | hsame
    · rw [hm, hm']
      exact h.mark v
    · rw [hsame]
  · rcases hn v with ⟨hm, hm'⟩ | hsame
    · have hold := h.search hv
      simp only [searchMap, hm, hm'] at hold ⊢
      exact hold
    · simp only [searchMap, hsame, h.tail.search hv]

theorem top (h : SameLevels p ms ms') (m : V → Option Bool) :
    SameLevels p (m :: ms) (m :: ms') :=
  .cons (fun _ => Iff.rfl) (fun v hv => by simp only [searchMap, h.search hv]) h

end SameLevels

theorem mergeMap_eq_true {saved merger : V → Option Bool} {v : V} :
    mergeMap saved merger v = some true ↔ saved v = some true ∨ merger v = some true := by
  unfold mergeMap
  rcases saved v with _ | _ | _ <;> rcases merger v with _ | _ | _ <;> simp

/-- How a value looked up through two maps fares when the inner is merged into
the outer, over what lies further out. -/
private theorem merged_value : ∀ (x x' y y' : Option Bool) (z z' : Bool),
    (x = some true ↔ x' = some true) → (y = some true ↔ y' = some true) → z = z' →
    y.getD z = y'.getD z' →
    (x.getD (y.getD z) = x'.getD (y'.getD z') ∨ x.getD z = x'.getD z') →
    (match (motive := Option Bool → Option Bool) x with
      | none => y
      | some div => some (y.getD false || div)).getD z =
    (match (motive := Option Bool → Option Bool) x' with
      | none => y'
      | some div => some (y'.getD false || div)).getD z' := by
  decide

namespace SameLevels

variable {p : V → Prop} {m m' n n' : V → Option Bool} {ms ms' : List (V → Option Bool)}

/-- A level merged into the one below it. -/
theorem merge_down (h : SameLevels p (m :: n :: ms) (m' :: n' :: ms')) :
    SameLevels p (mergeMap n m :: ms) (mergeMap n' m' :: ms') := by
  refine .cons (fun v => ?_) (fun v hv => ?_) h.tail.tail
  · rw [mergeMap_eq_true, mergeMap_eq_true, h.mark v, h.tail.mark v]
  · exact merged_value _ _ _ _ _ _ (h.mark v) (h.tail.mark v) (h.tail.tail.search hv)
      (h.tail.search hv) (.inl (h.search hv))

/-- Two levels over the same ones merged. -/
theorem merge_beside (h : SameLevels p (m :: ms) (m' :: ms'))
    (hn : SameLevels p (n :: ms) (n' :: ms')) :
    SameLevels p (mergeMap n m :: ms) (mergeMap n' m' :: ms') := by
  refine .cons (fun v => ?_) (fun v hv => ?_) h.tail
  · rw [mergeMap_eq_true, mergeMap_eq_true, h.mark v, hn.mark v]
  · exact merged_value _ _ _ _ _ _ (h.mark v) (hn.mark v) (h.tail.search hv)
      (hn.search hv) (.inr (h.search hv))

end SameLevels

/-! ## Alike states -/

section

variable [DecidableEq F]

/-- Saved states alike: of the same functions, with the same blocks marked. -/
structure SavedAlike (d : Variables V) (sv tv : List (SavedState V F B)) : Prop where
  saved : List.Forall₂
    (fun x y => x.functionOwner = y.functionOwner ∧ x.subBlockDiv = y.subBlockDiv) sv tv
  own : ∀ g, SameLevels (fun v => d.isGlobal v = false) (ownLevels g sv) (ownLevels g tv)
  globals : SameLevels (fun v => d.isGlobal v = true) (globalLevels sv) (globalLevels tv)

/-- States alike for the processing of `f`: what it reads is the same. The
sections found so far are `a` and `b`, with the same ones added in both since;
`full` asks for the same return value. -/
structure Alike (d : Variables V) (f : F) (full : Prop) (a b : F → Finset B)
    (s t : State V F B) : Prop where
  subBlockDiv : s.subBlockDiv = t.subBlockDiv
  own : SameLevels (fun v => d.isGlobal v = false)
    (s.variableDiv :: ownLevels f s.savedStates) (t.variableDiv :: ownLevels f t.savedStates)
  globals : SameLevels (fun v => d.isGlobal v = true)
    (s.globalVarDiv :: globalLevels s.savedStates) (t.globalVarDiv :: globalLevels t.savedStates)
  varDerefsTo : s.varDerefsTo = t.varDerefsTo
  globalVarDerefsTo : s.globalVarDerefsTo = t.globalVarDerefsTo
  subBlock : s.subBlock = t.subBlock
  divergent : s.divergent = t.divergent
  scopeLevelsFinal : s.scopeLevelsFinal = t.scopeLevelsFinal
  divergentLeft : s.divergentLeft = t.divergentLeft
  sections : ∃ K : F → Finset B, (∀ g b', b' ∈ s.subBlockDivFinal g ↔ b' ∈ a g ∨ b' ∈ K g) ∧
    ∀ g b', b' ∈ t.subBlockDivFinal g ↔ b' ∈ b g ∨ b' ∈ K g
  returns : full → s.divergentValue = t.divergentValue ∧ s.returnDerefsTo = t.returnDerefsTo

/-- Alike states, over saved states that stay what they are. -/
structure AlikeOver (d : Variables V) (f : F) (full : Prop) (a b : F → Finset B)
    (sv tv : List (SavedState V F B)) (s t : State V F B) : Prop where
  alike : Alike d f full a b s t
  left : s.savedStates = sv
  right : t.savedStates = tv

/-- **Processing that cannot tell alike states apart.** It returns the same from two
of them and leaves two that are alike again, over whatever saved states there are. -/
def Respects (d : Variables V) (f : F) {α : Type} (m : StateM (State V F B) α) : Prop :=
  ∀ full a b sv tv, SavedAlike d sv tv →
    Relates (AlikeOver d f full a b sv tv) (AlikeOver d f full a b sv tv) m

namespace Respects

variable {d : Variables V} {f : F} {α β : Type}

theorem pure (x : α) : Respects (B := B) d f (Pure.pure x) :=
  fun _ _ _ _ _ _ => .pure x

theorem bind {m : StateM (State V F B) α} {k : α → StateM (State V F B) β}
    (hm : Respects d f m) (hk : ∀ x, Respects d f (k x)) : Respects d f (m >>= k) :=
  fun full a b sv tv h => (hm full a b sv tv h).bind fun x => hk x full a b sv tv h

theorem ite {c : Prop} [Decidable c] {m n : StateM (State V F B) α} (hm : Respects d f m)
    (hn : Respects d f n) : Respects d f (if c then m else n) :=
  fun full a b sv tv h => .ite (hm full a b sv tv h) (hn full a b sv tv h)

theorem reads {g : State V F B → α}
    (hg : ∀ full a b s t, Alike d f full a b s t → g s = g t) : Respects d f (reads g) :=
  fun full a b _ _ _ => .reads fun s t h => hg full a b s t h.alike

theorem modify {g : State V F B → State V F B} (hsaved : ∀ s, (g s).savedStates = s.savedStates)
    (hg : ∀ full a b s t, Alike d f full a b s t → Alike d f full a b (g s) (g t)) :
    Respects d f (modify g) :=
  fun full a b _ _ _ => .modify fun s t h =>
    ⟨hg full a b s t h.alike, (hsaved s).trans h.left, (hsaved t).trans h.right⟩

theorem whileChange {m : StateM (State V F B) Bool} (h : Respects d f m) (n : ℕ) :
    Respects d f (whileChange m n) :=
  fun full a b sv tv hs => (h full a b sv tv hs).whileChange n

end Respects

variable {d : Variables V} {f : F} {full : Prop} {a b : F → Finset B} {s t : State V F B}

theorem Alike.isVariableDivergent (h : Alike d f full a b s t) (v : V) :
    isVariableDivergent d f s v = isVariableDivergent d f t v := by
  unfold Process.isVariableDivergent
  split
  · rename_i hglobal
    exact h.globals.search hglobal
  · rename_i hlocal
    exact h.own.search (Bool.eq_false_iff.2 hlocal)

theorem Alike.derefsTo (h : Alike d f full a b s t) : derefsTo d s = derefsTo d t := by
  funext v
  rw [Process.derefsTo, Process.derefsTo, h.varDerefsTo, h.globalVarDerefsTo]

/-- The flag of the block being processed. -/
theorem respects_divergent : Respects d f (reads fun s : State V F B => s.divergent) :=
  .reads fun _ _ _ _ _ h => h.divergent

theorem respects_subBlock : Respects d f (Common.reads fun s : State V F B => s.subBlock) :=
  .reads fun _ _ _ _ _ h => h.subBlock

theorem respects_enterBlock (block : B) (div : Bool) :
    Respects (V := V) d f (modify (enterBlock block div)) :=
  .modify (fun _ => rfl) fun _ _ _ _ _ h => { h with subBlock := rfl, divergent := rfl }

/-- A map looked up with no regard to what lies further out. -/
theorem SameLevels.getD_false {p : V → Prop} {m m' : V → Option Bool}
    {ms ms' : List (V → Option Bool)} (h : SameLevels p (m :: ms) (m' :: ms')) (v : V) :
    (m v).getD false = (m' v).getD false := by
  have hmark := h.mark v
  revert hmark
  generalize m v = x, m' v = x'
  revert x x'
  decide

section

variable [DecidableEq B]

theorem Alike.processFinalise (h : Alike d f full a b s t) (name : F) :
    Alike d f full a b (processFinalise name s) (processFinalise name t) :=
  { h with
    divergentLeft := by simp only [Process.processFinalise, h.divergentLeft, h.divergent]
    sections := by
      obtain ⟨K, hs, ht⟩ := h.sections
      refine ⟨Function.update K name (K name ∪ s.subBlockDiv), fun g b' => ?_, fun g b' => ?_⟩
      · rcases eq_or_ne g name with rfl | hg
        · simp only [Process.processFinalise, Function.update_self, Finset.mem_union, hs, or_assoc]
        · simp only [Process.processFinalise, Function.update_of_ne hg, hs]
      · rcases eq_or_ne g name with rfl | hg
        · simp only [Process.processFinalise, Function.update_self, Finset.mem_union, ht, or_assoc,
            h.subBlockDiv]
        · simp only [Process.processFinalise, Function.update_of_ne hg, ht] }

theorem Alike.setDivergent (h : Alike d f full a b s t) (body : B) (div : Bool) :
    Alike d f full a b (setDivergent body div s) (setDivergent body div t) :=
  { h with
    divergent := rfl
    subBlockDiv := by simp only [Process.setDivergent, h.subBlockDiv] }

/-! ## Blocks and saved states -/

theorem respects_leaveBlock (block : B) : Respects (V := V) d f (modify (leaveBlock block)) :=
  .modify (fun _ => rfl) fun _ _ _ s t h =>
    { h with
      subBlock := rfl
      divergent := by simp only [leaveBlock, enterBlock, h.subBlockDiv] }

theorem respects_orSubBlockDiv (block : B) (div : Bool) :
    Respects (V := V) d f (modify (orSubBlockDiv block div)) := by
  refine .modify (fun s => ?_) fun _ _ _ s t h => ?_
  · cases div <;> rfl
  · cases div with
    | false => exact h
    | true => exact { h with subBlockDiv := by simp only [orSubBlockDiv, if_true, h.subBlockDiv] }

theorem respects_getSubBlockForBranchFromBlock (block branch : B) :
    Respects (V := V) d f (modify (getSubBlockForBranchFromBlock f block branch)) := by
  refine .modify (fun s => ?_) fun _ _ _ s t h => ?_
  · unfold getSubBlockForBranchFromBlock
    split <;> rfl
  · unfold getSubBlockForBranchFromBlock
    rw [h.scopeLevelsFinal]
    split
    · exact h
    · exact { h with scopeLevelsFinal := rfl }

theorem respects_subBlockDiv (block : B) :
    Respects (V := V) d f (Common.reads fun s : State V F B => decide (block ∈ s.subBlockDiv)) :=
  .reads fun _ _ _ _ _ h => by rw [h.subBlockDiv]

/-- **The merge of saved maps**, over levels that go on below. -/
theorem AlikeOver.pop [Fintype V] {x y : SavedState V F B} {sv tv : List (SavedState V F B)}
    (howner : x.functionOwner = f ∧ y.functionOwner = f) (hblocks : x.subBlockDiv = y.subBlockDiv)
    (h : AlikeOver d f full a b (x :: sv) (y :: tv) s t) :
    (popState.run s).1 = (popState.run t).1 ∧
      AlikeOver d f full a b sv tv (popState.run s).2 (popState.run t).2 := by
  have hown := h.alike.own
  have hglobals := h.alike.globals
  rw [h.left, h.right] at hown hglobals
  simp only [ownLevels, globalLevels, List.filter_cons, howner.1, howner.2, decide_true, if_true,
    List.map_cons] at hown hglobals
  have hnew : ∀ {p : V → Prop} {m m' n n' : V → Option Bool} {ms ms' : List (V → Option Bool)},
      SameLevels p (m :: n :: ms) (m' :: n' :: ms') → (NewIn n m ↔ NewIn n' m') := by
    intro p m m' n n' ms ms' hlevels
    simp only [NewIn, ne_eq, hlevels.mark, hlevels.tail.mark]
  have hrun : ∀ {u : State V F B} {z : SavedState V F B} {zs : List (SavedState V F B)},
      u.savedStates = z :: zs → popState.run u =
        (decide (Change z u), { restoreAndMerge z u with savedStates := zs }) := by
    intro u z zs hu
    change popState u = _
    unfold popState
    rw [hu]
  rw [hrun h.left, hrun h.right]
  refine ⟨?_, { h.alike with
    subBlockDiv := ?_
    own := hown.merge_down
    globals := hglobals.merge_down }, rfl, rfl⟩
  · have hchange : Change x s ↔ Change y t := by
      unfold Change
      rw [hnew hown, hnew hglobals, h.alike.subBlockDiv, hblocks]
    simp only [hchange]
  · change x.subBlockDiv ∪ s.subBlockDiv = y.subBlockDiv ∪ t.subBlockDiv
    rw [hblocks, h.alike.subBlockDiv]

/-- **Processing between a save and its merge** respects alikeness where what is
processed there does. -/
theorem respects_onSavedState [Fintype V] {m : StateM (State V F B) Unit} (hm : Respects d f m) :
    Respects d f (onSavedState f m) := by
  intro full a b sv tv hsaved s t h
  have hown := h.alike.own
  have hglobals := h.alike.globals
  rw [h.left, h.right] at hown hglobals
  have hpushed : SavedAlike d (saveState f s :: sv) (saveState f t :: tv) := by
    refine ⟨.cons ⟨rfl, h.alike.subBlockDiv⟩ hsaved.saved, fun g => ?_, hglobals⟩
    by_cases hg : f = g
    · simp only [ownLevels, List.filter_cons, saveState, hg, decide_true, if_true, List.map_cons]
      rw [← hg]
      exact hown
    · simp only [ownLevels, List.filter_cons, saveState, hg, decide_false]
      exact hsaved.own g
  -- With the saved state on top both runs still agree, the new entry included.
  have hbegin : AlikeOver d f full a b (saveState f s :: sv) (saveState f t :: tv)
      (pushState f s) (pushState f t) := by
    refine ⟨{ h.alike with
      subBlockDiv := rfl
      own := ?_
      globals := ?_ }, ?_, ?_⟩
    · change SameLevels _ (_ :: ownLevels f (saveState f s :: s.savedStates))
        (_ :: ownLevels f (saveState f t :: t.savedStates))
      rw [h.left, h.right]
      exact (hpushed.own f).top _
    · change SameLevels _ (_ :: globalLevels (saveState f s :: s.savedStates))
        (_ :: globalLevels (saveState f t :: t.savedStates))
      rw [h.left, h.right]
      exact hpushed.globals.top _
    · change saveState f s :: s.savedStates = _
      rw [h.left]
    · change saveState f t :: t.savedStates = _
      rw [h.right]
  exact (hm full a b _ _ hpushed _ _ hbegin).2.pop ⟨rfl, rfl⟩ h.alike.subBlockDiv

end

/-! ## Pointers and assignments -/

variable [DecidableEq V]

theorem Alike.openDerefs (h : Alike d f full a b s t) (vs : Finset V) :
    Alike d f full a b (openDerefs d vs s) (openDerefs d vs t) :=
  { h with varDerefsTo := by simp only [Process.openDerefs, h.varDerefsTo] }

theorem Alike.insertDerefs (h : Alike d f full a b s t) (vs refs : Finset V) :
    Alike d f full a b (insertDerefs d vs refs s) (insertDerefs d vs refs t) :=
  { h with
    varDerefsTo := by simp only [Process.insertDerefs, h.varDerefsTo]
    globalVarDerefsTo := by simp only [Process.insertDerefs, h.globalVarDerefsTo] }

theorem Alike.setVariableDivergence (h : Alike d f full a b s t) (vs : Finset V) (div : Bool) :
    Alike d f full a b (setVariableDivergence d vs div s) (setVariableDivergence d vs div t) :=
  { h with
    own := h.own.change fun v => by
      by_cases hv : v ∈ vs ∧ d.isGlobal v = false
      · exact .inr (by simp only [Process.setVariableDivergence, if_pos hv])
      · exact .inl (by simp only [Process.setVariableDivergence, if_neg hv, and_self])
    globals := h.globals.change fun v => by
      by_cases hv : v ∈ vs ∧ d.isGlobal v = true
      · exact .inr (by simp only [Process.setVariableDivergence, if_pos hv])
      · exact .inl (by simp only [Process.setVariableDivergence, if_neg hv, and_self]) }

theorem respects_dereference : ∀ n vs, Respects (B := B) d f (dereference d f n vs) := by
  intro n
  induction n with
  | zero => exact fun vs => .pure _
  | succ n ih =>
    intro vs
    rw [dereference]
    refine .bind (.reads fun _ _ _ s t h => ?_) fun derefDiv =>
      .bind (.reads fun _ _ _ s t h => by rw [h.derefsTo]) fun next =>
        .bind (.modify (fun _ => rfl) fun _ _ _ _ _ h => h.openDerefs vs) fun _ =>
          .bind (ih next) fun rest => .pure _
    simp only [h.isVariableDivergent]

theorem respects_dereferencePointerVariable (v : V) (n : ℕ) :
    Respects (B := B) d f (dereferencePointerVariable d f v n) :=
  respects_dereference n {v}

theorem respects_isAssignmentDivergent (lhs : Lhs V) {value : StateM (State V F B) Bool}
    {references : StateM (State V F B) (Bool × Finset V)} (hvalue : Respects d f value)
    (hrefs : Respects d f references) :
    Respects d f (isAssignmentDivergent d f lhs value references) := by
  have hset : ∀ vs div, Respects (B := B) d f (modify (setVariableDivergence d vs div)) :=
    fun vs div => .modify (fun _ => rfl) fun _ _ _ _ _ h => h.setVariableDivergence vs div
  refine .bind (respects_dereferencePointerVariable _ _) fun lhsDerefs => .ite ?_ ?_
  · exact .bind hrefs fun rhs => .bind respects_divergent fun divergent =>
      .bind (.modify (fun _ => rfl) fun _ _ _ _ _ h => h.insertDerefs _ _) fun _ =>
        .bind (hset _ _) fun _ => .pure _
  · exact .bind hvalue fun assDiv => .bind respects_divergent fun divergent =>
      .ite (.bind (hset _ _) fun _ => .pure _) (.pure _)

/-! ## Calls -/

theorem Alike.callContext (h : Alike d f full a b s t) (params : List V) :
    callContext d s params = callContext d t params := by
  have hderefs : ∀ n vs, paramDerefs d s n vs = paramDerefs d t n vs := by
    intro n
    induction n with
    | zero => exact fun _ => rfl
    | succ n ih =>
      intro vs
      rw [paramDerefs, paramDerefs, h.varDerefsTo]
      simp only [ih]
  induction params with
  | nil => rfl
  | cons param params ih => rw [Process.callContext, Process.callContext, hderefs, ih]

variable [DecidableEq B]

/-- What the callee leaves is alike too. -/
theorem AlikeOver.calleeEnd {sv tv : List (SavedState V F B)} {name : F} (param : List V)
    (body : B) (parameters : List Bool) {processBlockStart processSteps : StateM (State V F B) Unit}
    (hsaved : SavedAlike d sv tv) (hstart : Respects d name processBlockStart)
    (hsteps : Respects d name processSteps) (h : AlikeOver d f full a b sv tv s t) :
    AlikeOver d name True a b sv tv
      (calleeEnd d f name param body parameters processBlockStart processSteps s)
      (calleeEnd d f name param body parameters processBlockStart processSteps t) := by
  have hcallee : Respects d name (do
      processBlockStart
      modify (setDivergent body s.divergent)
      processSteps
      modify (processFinalise name)) :=
    .bind hstart fun _ =>
      .bind (.modify (fun _ => rfl) fun _ _ _ _ _ h => h.setDivergent body _) fun _ =>
        .bind hsteps fun _ => .modify (fun _ => rfl) fun _ _ _ _ _ h => h.processFinalise name
  have hmap : (processStart d f name param parameters body s).variableDiv =
      (processStart d f name param parameters body t).variableDiv := by
    simp only [processStart, h.alike.callContext, h.alike.isVariableDivergent]
  have hbegin : AlikeOver d name True a b sv tv
      { s with toFunctionState := processStart d f name param parameters body s }
      { t with toFunctionState := processStart d f name param parameters body t } := by
    refine ⟨{ h.alike with
      subBlockDiv := rfl
      own := ?_
      varDerefsTo := ?_
      subBlock := rfl
      divergent := ?_
      returns := fun _ => ⟨rfl, rfl⟩ }, h.left, h.right⟩
    · rw [hmap, h.left, h.right]
      exact (hsaved.own name).top _
    · simp only [processStart, h.alike.callContext, h.alike.varDerefsTo]
    · simp only [processStart, h.alike.divergentLeft]
  have hend := (hcallee True a b sv tv hsaved _ _ hbegin).2
  unfold Process.calleeEnd
  rw [← h.alike.divergent]
  exact hend

/-- **A call** respects alikeness where the processing of the callee does. -/
theorem respects_isFunctionCallDivergent {name : F} {param : List V} {body : B}
    {parameters : List Bool} {processBlockStart processSteps : StateM (State V F B) Unit}
    (hstart : Respects d name processBlockStart) (hsteps : Respects d name processSteps) :
    Respects d f (isFunctionCallDivergent d f name param body parameters processBlockStart
      processSteps) := by
  intro full a b sv tv hsaved s t h
  have hend := h.calleeEnd param body parameters hsaved hstart hsteps
  obtain ⟨hvalue, hrefs⟩ := hend.alike.returns trivial
  refine ⟨Prod.ext hvalue hrefs, { hend.alike with
    subBlockDiv := h.alike.subBlockDiv
    own := ?_
    varDerefsTo := ?_
    subBlock := h.alike.subBlock
    divergent := h.alike.divergent
    returns := h.alike.returns }, hend.left, hend.right⟩
  · have hown := h.alike.own
    rw [h.left, h.right] at hown
    have hinner := hend.alike.own
    change SameLevels _ (_ :: ownLevels f (calleeEnd d f name param body parameters _ _
      s).savedStates)
      (_ :: ownLevels f (calleeEnd d f name param body parameters _ _ t).savedStates)
    rw [hend.left, hend.right]
    refine hown.change fun v => ?_
    change (afterCall d param s _).variableDiv v = _ ∧ (afterCall d param t _).variableDiv v = _ ∨
      (afterCall d param s _).variableDiv v = (afterCall d param t _).variableDiv v
    simp only [afterCall, h.alike.callContext, hinner.getD_false v]
    split_ifs
    · exact .inr rfl
    · exact .inr rfl
    · exact .inl ⟨rfl, rfl⟩
  · change (afterCall d param s _).varDerefsTo = (afterCall d param t _).varDerefsTo
    simp only [afterCall, h.alike.callContext, h.alike.varDerefsTo, hend.alike.varDerefsTo]

end

/-! ## Statements -/

section

variable [DecidableEq F] [DecidableEq B] {d : Variables V} {f : F}

theorem respects_markSubBlockDivergentViral [Fintype B] (block : B) :
    Respects (V := V) d f (modify (markSubBlockDivergentViral f block)) :=
  .modify (fun _ => rfl) fun _ _ _ s t h =>
    { h with
      subBlockDiv := by
        simp only [markSubBlockDivergentViral, h.scopeLevelsFinal, h.subBlockDiv] }

theorem respects_processStatementJump [Fintype B] {test : StateM (State V F B) Bool}
    (htest : Respects d f test) (loopBlk : B) :
    Respects d f (processStatementJump f test loopBlk) :=
  .bind htest fun _ => .bind respects_divergent fun _ =>
    .ite (respects_markSubBlockDivergentViral loopBlk) (.pure _)

theorem respects_processStatementReturn [DecidableEq V] [Fintype B] (returnLevel : ℕ)
    {value : StateM (State V F B) Bool}
    {references : StateM (State V F B) (Bool × Finset V)} (hvalue : Respects d f value)
    (hrefs : Respects d f references) :
    Respects d f (processStatementReturn f returnLevel value references) := by
  have hreturn : Respects d f (if returnLevel = 0 then do
        let div ← value
        modify fun s => { s with divergentValue := s.divergentValue || (div || s.divergent) }
      else do
        let refs ← references
        modify fun s =>
          { s with
            divergentValue := s.divergentValue || refs.1 || s.divergent
            returnDerefsTo := s.returnDerefsTo ∪ refs.2 } : StateM (State V F B) Unit) := by
    refine .ite (.bind hvalue fun div => ?_) (.bind hrefs fun refs => ?_)
    · exact .modify (fun _ => rfl) fun full a b s t h => { h with
        returns := fun hfull => ⟨by simp only [(h.returns hfull).1, h.divergent],
          (h.returns hfull).2⟩ }
    · exact .modify (fun _ => rfl) fun full a b s t h => { h with
        returns := fun hfull => ⟨by simp only [(h.returns hfull).1, h.divergent],
          by simp only [(h.returns hfull).2]⟩ }
  refine .bind respects_divergent fun _ => .ite ?_ hreturn
  exact .bind respects_subBlock fun _ =>
    .bind (respects_markSubBlockDivergentViral _) fun _ => hreturn

/-- The false branch, merged with the true one over the same levels. -/
theorem respects_processFalseBranch (falseBranch : B) {m : StateM (State V F B) Unit}
    (hm : Respects d f m) : Respects d f (processFalseBranch f falseBranch m) := by
  intro full a b sv tv hsaved s t h
  have hbegin : AlikeOver d f full a b sv tv
      (enterBlock falseBranch (decide (falseBranch ∈ (cleared s).subBlockDiv)) (cleared s))
      (enterBlock falseBranch (decide (falseBranch ∈ (cleared t).subBlockDiv)) (cleared t)) :=
    ⟨{ h.alike with
      subBlockDiv := rfl
      own := h.alike.own.tail.top _
      globals := h.alike.globals.tail.top _
      subBlock := rfl
      divergent := rfl }, h.left, h.right⟩
  have hend := (hm full a b sv tv hsaved _ _ hbegin).2
  have hown := hend.alike.own
  have hglobals := hend.alike.globals
  rw [hend.left, hend.right, ← h.left, ← h.right] at hown hglobals
  refine ⟨rfl, { hend.alike with
    subBlockDiv := ?_
    own := ?_
    globals := ?_ }, hend.left, hend.right⟩
  · change (saveState f s).subBlockDiv ∪ _ = (saveState f t).subBlockDiv ∪ _
    rw [hend.alike.subBlockDiv]
    exact congrArg (· ∪ _) h.alike.subBlockDiv
  · change SameLevels _ (_ :: ownLevels f (m.run _).2.savedStates)
      (_ :: ownLevels f (m.run _).2.savedStates)
    rw [hend.left, hend.right, ← h.left, ← h.right]
    exact hown.merge_beside h.alike.own
  · change SameLevels _ (_ :: globalLevels (m.run _).2.savedStates)
      (_ :: globalLevels (m.run _).2.savedStates)
    rw [hend.left, hend.right, ← h.left, ← h.right]
    exact hglobals.merge_beside h.alike.globals

theorem respects_processStatementIf [Fintype V] {test : StateM (State V F B) Bool} (trueBranch : B)
    {processTrue : StateM (State V F B) Unit}
    {falseBranch : Option (B × StateM (State V F B) Unit)} (htest : Respects d f test)
    (htrue : Respects d f processTrue) (hfalse : ∀ branch ∈ falseBranch, Respects d f branch.2) :
    Respects d f (processStatementIf f test trueBranch processTrue falseBranch) := by
  refine .bind respects_subBlock fun subBlock =>
    .bind (respects_getSubBlockForBranchFromBlock _ _) fun _ => .bind htest fun exprDiv =>
      .bind respects_divergent fun divergent => .bind (respects_orSubBlockDiv _ _) fun _ => ?_
  have hbranches : ∀ div, Respects d f (do
      modify (enterBlock trueBranch div)
      processTrue
      falseBranch.elim (Pure.pure ()) fun branch => processFalseBranch f branch.1 branch.2) := by
    refine fun div => .bind (respects_enterBlock _ _) fun _ => .bind htrue fun _ => ?_
    cases falseBranch with
    | none => exact .pure _
    | some branch => exact respects_processFalseBranch _ (hfalse branch rfl)
  have hrest : Respects d f (do
      let branchBlockDiv ← Common.reads fun s : State V F B => decide (trueBranch ∈ s.subBlockDiv)
      let _ ← onSavedState f do
        modify (enterBlock trueBranch branchBlockDiv)
        processTrue
        falseBranch.elim (Pure.pure ()) fun branch => processFalseBranch f branch.1 branch.2
      modify (leaveBlock subBlock)) :=
    .bind (respects_subBlockDiv _) fun div =>
      .bind (respects_onSavedState (hbranches div)) fun _ => respects_leaveBlock _
  cases falseBranch with
  | none => exact hrest
  | some branch =>
    exact .bind (respects_getSubBlockForBranchFromBlock _ _) fun _ =>
      .bind (respects_orSubBlockDiv _ _) fun _ => hrest

theorem respects_processForBody (subBlock body : B) (div : Bool)
    {processBody : StateM (State V F B) Unit} {incr test : StateM (State V F B) Bool}
    (hbody : Respects d f processBody) (hincr : Respects d f incr) (htest : Respects d f test) :
    Respects d f (processForBody f subBlock body div processBody incr test) :=
  .bind (respects_enterBlock _ _) fun _ => .bind hbody fun _ => .bind hincr fun _ =>
    .bind (.modify (fun _ => rfl) fun _ _ _ _ _ h => { h with subBlock := rfl }) fun _ =>
      .bind (respects_getSubBlockForBranchFromBlock _ _) fun _ => .bind htest fun _ =>
        .bind respects_divergent fun _ => respects_orSubBlockDiv _ _

/-- **One round of a `for`** respects alikeness. -/
theorem respects_forRound [Fintype V] (subBlock body : B) {processBody : StateM (State V F B) Unit}
    {incr test : StateM (State V F B) Bool} (hbody : Respects d f processBody)
    (hincr : Respects d f incr) (htest : Respects d f test) :
    Respects d f (forRound f subBlock body processBody incr test) :=
  .bind (respects_subBlockDiv _) fun _ =>
    respects_onSavedState (respects_processForBody _ _ _ hbody hincr htest)

theorem respects_processStatementFor [Fintype V] [Fintype B]
    {init test : StateM (State V F B) Bool} (body : B)
    {processBody : StateM (State V F B) Unit} {incr : StateM (State V F B) Bool}
    (hinit : Respects d f init) (htest : Respects d f test) (hbody : Respects d f processBody)
    (hincr : Respects d f incr) :
    Respects d f (processStatementFor f init test body processBody incr) :=
  .bind hinit fun _ => .bind respects_subBlock fun _ =>
    .bind (respects_getSubBlockForBranchFromBlock _ _) fun _ => .bind htest fun _ =>
      .bind respects_divergent fun _ => .bind (respects_orSubBlockDiv _ _) fun _ =>
        .bind (.whileChange (respects_forRound _ _ hbody hincr htest) _) fun _ =>
          respects_leaveBlock _

/-! ## The walk -/

variable [DecidableEq V] [Fintype V] [Fintype B]

mutual

theorem respects_isExpressionDivergent (f : F) :
    ∀ e : Expr V F B, Respects d f (isExpressionDivergent d f e)
  | .constant => .pure _
  | .assignment lhs rhs =>
    respects_isAssignmentDivergent lhs (respects_isExpressionDivergent f rhs)
      (respects_getExpressionVariableReferences f rhs)
  | .variable var _ =>
    .bind (respects_dereferencePointerVariable var _) fun derefs =>
      .bind (.reads fun _ _ _ s t h => by simp only [h.isVariableDivergent]) fun _ => .pure _
  | .funcall callee paramValue =>
    .bind (respects_assignParameters f callee.param paramValue) fun parameters =>
      .bind (respects_processWithContext f callee parameters) fun _ => .pure _
  | .binary lhs rhs =>
    .bind (respects_isExpressionDivergent f lhs) fun _ =>
      .bind (respects_isExpressionDivergent f rhs) fun _ => .pure _
  | .unary operand => respects_isExpressionDivergent f operand
  | .comma lhs rhs =>
    .bind (respects_isExpressionDivergent f lhs) fun _ => respects_isExpressionDivergent f rhs
  | .cl _ => .pure _

theorem respects_getExpressionVariableReferences (f : F) :
    ∀ e : Expr V F B, Respects d f (getExpressionVariableReferences d f e)
  | .constant => .pure _
  | .comma lhs rhs =>
    .bind (respects_isExpressionDivergent f lhs) fun _ =>
      respects_getExpressionVariableReferences f rhs
  | .assignment lhs rhs =>
    .bind (respects_isAssignmentDivergent lhs (respects_isExpressionDivergent f rhs)
      (respects_getExpressionVariableReferences f rhs)) fun _ =>
        respects_dereferencePointerVariable _ _
  | .funcall callee paramValue =>
    .bind (respects_assignParameters f callee.param paramValue) fun parameters =>
      respects_processWithContext f callee parameters
  | .variable _ _ => .ite (.pure _) (respects_dereferencePointerVariable _ _)
  | .binary _ _ => .pure _
  | .unary _ => .pure _
  | .cl _ => .pure _

theorem respects_assignParameters (f : F) :
    ∀ (params : List V) (values : List (Expr V F B)),
      Respects d f (assignParameters d f params values)
  | param :: params, value :: values =>
    .bind (respects_isAssignmentDivergent ⟨param, 0⟩ (respects_isExpressionDivergent f value)
      (respects_getExpressionVariableReferences f value)) fun _ =>
        .bind (respects_assignParameters f params values) fun _ => .pure _
  | [], [] => .pure _
  | [], _ :: _ => .pure _
  | _ :: _, [] => .pure _

theorem respects_processWithContext (f : F) :
    ∀ (callee : Func V F B) (parameters : List Bool),
      Respects d f (processWithContext d f callee parameters)
  | .mk name returnLevel _ (.mk _ localVars stms), _ =>
    respects_isFunctionCallDivergent (respects_processBlockStart name localVars)
      (respects_processSteps name returnLevel stms)

theorem respects_processBlockStart (f : F) :
    ∀ localVars : List (V × Expr V F B), Respects d f (processBlockStart d f localVars)
  | [] => .pure _
  | (var, init) :: rest =>
    .bind (respects_isAssignmentDivergent ⟨var, 0⟩ (respects_isExpressionDivergent f init)
      (respects_getExpressionVariableReferences f init)) fun _ =>
        respects_processBlockStart f rest

theorem respects_processBlock (f : F) (returnLevel : ℕ) :
    ∀ block : Block V F B, Respects d f (processBlock d f returnLevel block)
  | .mk _ localVars stms =>
    .bind (respects_processBlockStart f localVars) fun _ =>
      respects_processSteps f returnLevel stms

theorem respects_processSteps (f : F) (returnLevel : ℕ) :
    ∀ stms : List (Statement V F B), Respects d f (processSteps d f returnLevel stms)
  | [] => .pure _
  | stm :: stms =>
    .bind (respects_processStep f returnLevel stm) fun _ =>
      respects_processSteps f returnLevel stms

/-- **The walk cannot tell alike states apart.** -/
theorem respects_processStep (f : F) (returnLevel : ℕ) :
    ∀ stm : Statement V F B, Respects d f (processStep d f returnLevel stm)
  | .assign lhs rhs =>
    .bind (respects_isAssignmentDivergent lhs (respects_isExpressionDivergent f rhs)
      (respects_getExpressionVariableReferences f rhs)) fun _ => .pure _
  | .for initLhs initRhs test incrLhs incrRhs body =>
    respects_processStatementFor body.block
      (respects_isAssignmentDivergent initLhs (respects_isExpressionDivergent f initRhs)
        (respects_getExpressionVariableReferences f initRhs))
      (respects_isExpressionDivergent f test) (respects_processBlock f returnLevel body)
      (respects_isAssignmentDivergent incrLhs (respects_isExpressionDivergent f incrRhs)
        (respects_getExpressionVariableReferences f incrRhs))
  | .ifElse test trueBranch none => by
    rw [processStep]
    exact respects_processStatementIf trueBranch.block (respects_isExpressionDivergent f test)
      (respects_processBlock f returnLevel trueBranch) fun branch hbranch =>
        absurd hbranch (Option.not_mem_none branch)
  | .ifElse test trueBranch (some falseBranch) => by
    rw [processStep]
    refine respects_processStatementIf trueBranch.block (respects_isExpressionDivergent f test)
      (respects_processBlock f returnLevel trueBranch) fun branch hbranch => ?_
    obtain rfl := Option.mem_some.1 hbranch
    exact respects_processBlock f returnLevel falseBranch
  | .invokePrim => .pure _
  | .invoke callee paramValue =>
    .bind (respects_assignParameters f callee.param paramValue) fun parameters =>
      .bind (respects_processWithContext f callee parameters) fun _ => .pure _
  | .return var =>
    respects_processStatementReturn returnLevel (respects_isExpressionDivergent f var)
      (respects_getExpressionVariableReferences f var)
  | .continue test loopBlk =>
    respects_processStatementJump (respects_isExpressionDivergent f test) loopBlk
  | .break test loopBlk =>
    respects_processStatementJump (respects_isExpressionDivergent f test) loopBlk

end

end

end Process

end Divergence

end CLSmith
