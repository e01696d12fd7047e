import CLSmith.EMI.InSync
import Mathlib.Data.List.Flatten
/-!
# Variants of a program

A program with its EMI sections, and the numbers `PruneEMISections` draws in
it: the same for all probabilities where no goto of a section leads back to
a statement that is pruned before the goto is visited.
-/

namespace CLSmith

namespace EMI

open Generate Common

variable {M : Type}

/-- A section: the function it is in, its true block and the statements. -/
structure Section where
  func : ℕ
  block : ℕ
  stms : Stms ℕ ℕ

/-- The blocks of a section as pruning gets through with them. -/
def Section.order (S : Section) : List ℕ := S.stms.blocks ++ [S.block]

/-- The blocks of the sections in the function `i`. -/
def orderIn (i : ℕ) (sections : List Section) : List ℕ :=
  sections.flatMap fun S => if S.func = i then S.order else []

/-- The coins of the sections. -/
def costOf (sections : List Section) : ℕ := (sections.map fun S => cost S.stms).sum

/-- **A program after generation**: its functions, and its sections in the
order they were added to the controller. No section is in another
(`emi_context`), and a goto has an edge to the statement it leads to. A break or
continue is in a loop, and no goto leads into one: `find_good_jump_block` takes no
block that is in an array loop for its end. -/
structure Program (M : Type) where
  func : ℕ → Pruning M
  sections : List Section
  parent : ∀ i c, ∀ s ∈ (func i).stms c, (func i).parent s = c
  stms : ∀ S ∈ sections, (func S.func).stms S.block = S.stms.roots
  holds : ∀ S ∈ sections, (func S.func).Holds S.stms
  ids : ∀ S ∈ sections, S.stms.preorder.Nodup
  emi : ∀ S ∈ sections, ∀ s ∈ S.stms.preorder, ∀ i j t e, (func S.func).kind s ≠ .emi i j t e
  blocks : ∀ i, (orderIn i sections).Nodup
  gotos : ∀ i, ∀ e ∈ (func i).edges, ∃ test, (func i).kind e.1 = .goto test e.2
  standing : ∀ i, ∀ e ∈ (func i).edges, e.1 ∈ (func i).stms ((func i).parent e.1)
  undeleted : ∀ i, ∀ e ∈ (func i).edges, ∀ c, e.1 ∉ (func i).deleted c
  jumps : ∀ i c, ∀ s ∈ (func i).stms c, isBreakContinue ((func i).kind s) = true →
    (func i).inLoop c = true
  targets : ∀ i, ∀ e ∈ (func i).edges, e.2 ∈ (func i).stms ((func i).parent e.2) ∧
    (func i).inLoop ((func i).parent e.2) = false

namespace Program

open Pruning

variable (P : Program M)

/-- `PruneEMISections`. -/
def prune (p : Probs) (n : ℕ) : Gen (ℕ → Pruning M) :=
  pruneEmiSections p n (P.sections.map fun S => (S.func, S.block)) P.func

/-- One coin for each leaf of the sections and two for each compound statement. -/
def cost : ℕ := costOf P.sections

/-- **The gotos keep the variants in sync**: in every function, no chain of
gotos leads from one section block to another that is through before it, where
what it leads to could be pruned away and the gotos with it. -/
def Ordered : Prop := ∀ i, (P.func i).Ordered (orderIn i P.sections)

/-- **The variants of a program are in sync**: under all settings pruning
draws the same numbers, those of its statements. -/
def InSync : Prop :=
  ∀ (p q : Probs) (n : ℕ) (tape : Tape), (∀ i, (orderIn i P.sections).length ≤ n) →
    P.cost ≤ tape.length →
    ∃ σ τ, P.prune p n tape = some (σ, tape.drop P.cost) ∧
      P.prune q n tape = some (τ, tape.drop P.cost)

theorem layout (i : ℕ) : Layout (P.func i) (orderIn i P.sections) where
  nodup := P.blocks i
  parent := P.parent i
  nests := by
    intro c hc s hs d hd
    obtain ⟨S, hS, hcS⟩ := List.mem_flatMap.mp hc
    split at hcS
    · next hi =>
      subst hi
      have hsub : S.order.Sublist (orderIn S.func P.sections) := by
        have hone := (List.singleton_sublist.mpr hS).flatMap fun S' : Section =>
          if S'.func = S.func then S'.order else []
        unfold orderIn
        simpa using hone
      have hemi := P.emi S hS
      have hpair : [d, c].Sublist S.order := by
        rcases List.mem_append.mp hcS with hcS | hcS
        · exact ((P.holds S hS).before hemi c hcS s hs d hd).trans (List.sublist_append_left _ _)
        · obtain rfl := List.mem_singleton.mp hcS
          rw [P.stms S hS] at hs
          have hd' := List.singleton_sublist.mpr ((P.holds S hS).mem_blocks hemi s hs d hd)
          exact hd'.append (List.Sublist.refl _)
      exact idxOf_lt_of_sublist (P.blocks S.func) (hpair.trans hsub)
    · cases hcS
  gotos := P.gotos i
  standing := P.standing i
  undeleted := P.undeleted i
  targets e he := by
    obtain ⟨hmem, hout⟩ := P.targets i e he
    refine Bool.eq_false_iff.mpr fun hbc => ?_
    have hin := P.jumps i _ e.2 hmem hbc
    rw [hout] at hin
    cases hin

variable {P}

/-- The sections still to come are pruned one after the other. -/
theorem pruneEmiSections_total {p : Probs} {n : ℕ} (ho : P.Ordered)
    (hn : ∀ i, (orderIn i P.sections).length ≤ n) (secs : List Section) :
    ∀ (pre : List Section) (σ : ℕ → Pruning M) (tape : Tape), P.sections = pre ++ secs →
      (∀ i, Inv (P.func i) (orderIn i P.sections) (orderIn i pre).length (σ i)) →
      costOf secs ≤ tape.length →
      ∃ τ, pruneEmiSections p n (secs.map fun S => (S.func, S.block)) σ tape =
        some (τ, tape.drop (costOf secs)) := by
  induction secs with
  | nil => exact fun _ σ tape _ _ _ => ⟨σ, rfl⟩
  | cons S secs ih =>
    intro pre σ tape hsec hinv htape
    have hcost : costOf (S :: secs) = EMI.cost S.stms + costOf secs := rfl
    rw [hcost] at htape ⊢
    have hS : S ∈ P.sections := by
      rw [hsec]
      simp
    have hord : orderIn S.func P.sections =
        orderIn S.func pre ++ (S.stms.blocks ++ S.block :: orderIn S.func secs) := by
      rw [hsec]
      simp [orderIn, Section.order]
    have hidx := hn S.func
    have hfuel : (orderIn S.func P.sections).idxOf S.block < n := by
      have hmem : S.block ∈ orderIn S.func P.sections := by
        rw [hord]
        simp
      exact lt_of_lt_of_le (List.idxOf_lt_length_of_mem hmem) hidx
    obtain ⟨f, hrun, hf⟩ := (hinv S.func).pruneBlock (p := p) (n := n) (P.layout S.func)
      (ho S.func) hord (P.stms S hS) (P.holds S hS) (P.ids S hS) hfuel
      (le_trans (Nat.le_add_right _ _) htape)
    -- the section's own function is through it, the others are where they were
    have hpre : ∀ i, Inv (P.func i) (orderIn i P.sections) (orderIn i (pre ++ [S])).length
        (Function.update σ S.func f i) := by
      intro i
      by_cases hi : i = S.func
      · subst hi
        have hlen : (orderIn S.func (pre ++ [S])).length =
            (orderIn S.func pre).length + S.stms.blocks.length + 1 := by
          simp [orderIn, Section.order, Nat.add_assoc]
        rw [hlen, Function.update_self]
        exact hf
      · have hlen : orderIn i (pre ++ [S]) = orderIn i pre := by
          simp [orderIn, Ne.symm hi]
        rw [hlen, Function.update_of_ne hi]
        exact hinv i
    obtain ⟨τ, hrest⟩ := ih (pre ++ [S]) (Function.update σ S.func f)
      (tape.drop (EMI.cost S.stms)) (by rw [hsec]; simp) hpre
      (by rw [List.length_drop]; omega)
    rw [List.drop_drop] at hrest
    refine ⟨τ, ?_⟩
    unfold pruneEmiSections at hrest ⊢
    rw [List.map_cons, List.foldlM_cons]
    exact Gen.bind_eq_some.mpr ⟨_, _, Gen.bind_eq_some.mpr ⟨f, _, hrun, rfl⟩, hrest⟩

end Program

/-- **The variants of a program are in sync** where its gotos keep to the order of
pruning: whatever the two settings leave out, both take the same numbers from the
tape, and as many as the statements of the sections ask for. -/
theorem variants_inSync (P : Program M) (h : P.Ordered) : P.InSync := by
  intro p q n tape hn htape
  have hinit : ∀ i, Pruning.Inv (P.func i) (orderIn i P.sections) (orderIn i []).length
      (P.func i) :=
    fun i => .init (P.layout i)
  obtain ⟨σ, hσ⟩ := Program.pruneEmiSections_total (p := p) h hn P.sections [] P.func tape rfl hinit
    htape
  obtain ⟨τ, hτ⟩ := Program.pruneEmiSections_total (p := q) h hn P.sections [] P.func tape rfl hinit
    htape
  exact ⟨σ, τ, hσ, hτ⟩

/-! ## A goto between two sections -/

/-- Two sections of one statement each, the blocks 1 and 2; one of the
statements is a goto to the other. -/
def jumpTables (forward : Bool) : Pruning ℤ where
  func :=
    { block := fun b => match b with
        | 0 => ⟨none, .body, false, [], [0, 1]⟩
        | 1 => ⟨some 0, .emi 0 1, false, [], [2]⟩
        | 2 => ⟨some 0, .emi 2 3, false, [], [3]⟩
        | _ => ⟨some 0, .branch, false, [], []⟩
      stm := fun s => match s with
        | 0 => ⟨0, .emi 0 1 1 3, []⟩
        | 1 => ⟨0, .emi 2 3 2 4, []⟩
        | 2 => ⟨1, if forward then .goto (fun m => decide (m ≠ 0)) 3 else .simple id, []⟩
        | _ => ⟨2, if forward then .simple id else .goto (fun m => decide (m ≠ 0)) 2, []⟩ }
  edges := if forward then [(2, 3)] else [(3, 2)]

def jumpProgram (forward : Bool) : Program ℤ where
  func _ := jumpTables forward
  sections := [⟨0, 1, .leaf 2 .nil⟩, ⟨0, 2, .leaf 3 .nil⟩]
  parent _ c s hs := by
    match c with
    | 0 =>
      rcases List.mem_cons.mp hs with rfl | hs
      · rfl
      · obtain rfl := List.mem_singleton.mp hs
        rfl
    | 1 =>
      obtain rfl := List.mem_singleton.mp hs
      rfl
    | 2 =>
      obtain rfl := List.mem_singleton.mp hs
      rfl
    | c + 3 => cases hs
  stms := by
    intro S hS
    simp only [List.mem_cons, List.not_mem_nil, or_false] at hS
    rcases hS with rfl | rfl <;> rfl
  holds := by
    intro S hS
    simp only [List.mem_cons, List.not_mem_nil, or_false] at hS
    rcases hS with rfl | rfl <;> cases forward <;> exact ⟨rfl, trivial⟩
  ids := by
    intro S hS
    simp only [List.mem_cons, List.not_mem_nil, or_false] at hS
    rcases hS with rfl | rfl <;> exact List.nodup_singleton _
  emi := by
    intro S hS s hs
    simp only [List.mem_cons, List.not_mem_nil, or_false] at hS
    rcases hS with rfl | rfl
    · obtain rfl := List.mem_singleton.mp hs
      cases forward <;> exact fun _ _ _ _ h => nomatch h
    · obtain rfl := List.mem_singleton.mp hs
      cases forward <;> exact fun _ _ _ _ h => nomatch h
  blocks i := by
    by_cases hi : 0 = i
    · subst hi
      decide
    · simp [orderIn, hi]
  gotos _ e he := by
    cases forward <;>
    · obtain rfl := List.mem_singleton.mp he
      exact ⟨_, rfl⟩
  standing _ e he := by
    cases forward <;>
    · obtain rfl := List.mem_singleton.mp he
      exact List.mem_cons_self
  undeleted _ e _ c := List.not_mem_nil
  jumps _ c s hs hbc := by
    match s with
    | 0 => cases hbc
    | 1 => cases hbc
    | 2 => cases forward <;> cases hbc
    | s + 3 => cases forward <;> cases hbc
  targets _ e he := by
    cases forward <;>
    · obtain rfl := List.mem_singleton.mp he
      exact ⟨List.mem_cons_self, rfl⟩

theorem leads_singleton {x y g t : ℕ} (hne : x ≠ y) (h : Leads [(x, y)] g t) : g = x ∧ t = y := by
  induction h with
  | single h =>
    cases List.mem_singleton.mp h
    exact ⟨rfl, rfl⟩
  | tail _ h ih =>
    cases List.mem_singleton.mp h
    exact absurd ih.2 hne

/-- A goto into the section after its own does no harm. -/
theorem variants_inSync_forward : (jumpProgram true).InSync := by
  refine variants_inSync _ fun i g t h hg ht => ?_
  obtain ⟨rfl, rfl⟩ := leads_singleton (by decide) h
  by_cases hi : 0 = i
  · subst hi
    decide
  · simp [orderIn, jumpProgram, hi] at hg

/-- **A goto back into an earlier section** is removed with the statement it
leads to, and its coin is not drawn. -/
theorem not_forall_inSync : ¬ ∀ (M : Type) (P : Program M), P.InSync := by
  intro hall
  have hn : ∀ i, (orderIn i (jumpProgram false).sections).length ≤ 2 := by
    intro i
    by_cases hi : 0 = i
    · subst hi
      decide
    · simp [orderIn, jumpProgram, hi]
  obtain ⟨_, τ, -, hτ⟩ := hall ℤ (jumpProgram false) ⟨0, 0, 0⟩ ⟨100, 0, 0⟩ 2 [0, 0] hn (by decide)
  have hrun : ((jumpProgram false).prune ⟨100, 0, 0⟩ 2 [0, 0]).map Prod.snd = some [0] := rfl
  have hcost : (jumpProgram false).cost = 2 := rfl
  rw [hτ, hcost] at hrun
  cases hrun

end EMI

end CLSmith
