import Mathlib.Logic.Relation
import Mathlib.Data.Nat.Find
/-!
# Transition systems

A set of initial states and a step relation, the states its runs reach,
and the three rules every development over it uses: an invariant holds at
every reachable state, a bounded measure no step lowers has a plateau, and
a system in which every unfinished state can raise such a measure can
finish.
-/

namespace CLSmith

namespace Common

/-- **A transition system**: the states it may start in, and the steps from one state
to the next. What is proved of it is proved of all states such steps lead to. -/
structure System (σ : Type*) where
  Init : σ → Prop
  Step : σ → σ → Prop

namespace System

variable {σ : Type*} (M : System σ)

/-- Any number of steps. -/
def Reaches : σ → σ → Prop := Relation.ReflTransGen M.Step

/-- A state some run from an initial state ends in. -/
def Reachable (s : σ) : Prop := ∃ s₀, M.Init s₀ ∧ M.Reaches s₀ s

variable {M} {s s' s'' : σ}

theorem Reaches.refl : M.Reaches s s := Relation.ReflTransGen.refl

theorem Reaches.single (h : M.Step s s') : M.Reaches s s' := Relation.ReflTransGen.single h

theorem Reaches.trans (h : M.Reaches s s') (h' : M.Reaches s' s'') : M.Reaches s s'' :=
  Relation.ReflTransGen.trans h h'

theorem Reaches.tail (h : M.Reaches s s') (h' : M.Step s' s'') : M.Reaches s s'' :=
  Relation.ReflTransGen.tail h h'

theorem Reachable.init (h : M.Init s) : M.Reachable s := ⟨s, h, Reaches.refl⟩

theorem Reachable.reaches (h : M.Reachable s) (h' : M.Reaches s s') : M.Reachable s' := by
  obtain ⟨s₀, h₀, hr⟩ := h
  exact ⟨s₀, h₀, hr.trans h'⟩

theorem Reachable.step (h : M.Reachable s) (h' : M.Step s s') : M.Reachable s' :=
  h.reaches (Reaches.single h')

/-- **The invariant rule.** What holds initially and survives every step
out of a reachable state holds at every reachable state. -/
theorem Reachable.invariant {I : σ → Prop} (hinit : ∀ s, M.Init s → I s)
    (hstep : ∀ s s', M.Reachable s → I s → M.Step s s' → I s') (h : M.Reachable s) : I s := by
  obtain ⟨s₀, h₀, hr⟩ := h
  have key : M.Reachable s ∧ I s := by
    induction hr with
    | refl => exact ⟨Reachable.init h₀, hinit s₀ h₀⟩
    | tail _ hlast ih => exact ⟨ih.1.step hlast, hstep _ _ ih.1 ih.2 hlast⟩
  exact key.2

/-- What survives every step out of a reachable state survives a run. -/
theorem Reaches.preserves {I : σ → Prop} (hs : M.Reachable s)
    (hstep : ∀ s s', M.Reachable s → I s → M.Step s s' → I s')
    (h : M.Reaches s s') (hI : I s) : I s' := by
  have key : M.Reachable s' ∧ I s' := by
    induction h with
    | refl => exact ⟨hs, hI⟩
    | tail _ hlast ih => exact ⟨ih.1.step hlast, hstep _ _ ih.1 ih.2 hlast⟩
  exact key.2

/-- A measure no step lowers is not lowered by a run. -/
theorem Reaches.measure_le {μ : σ → ℕ} (hmono : ∀ s s', M.Reachable s → M.Step s s' → μ s ≤ μ s')
    (hs : M.Reachable s) (h : M.Reaches s s') : μ s ≤ μ s' :=
  h.preserves (I := fun x => μ s ≤ μ x) hs
    (fun a b ha hle hab => Nat.le_trans hle (hmono a b ha hab)) (Nat.le_refl _)

/-- **A bounded measure that never falls has a plateau**: from every
reachable state some run leads to a state past which the measure stays as
it is. -/
theorem exists_plateau {μ : σ → ℕ} {B : ℕ}
    (hmono : ∀ s s', M.Reachable s → M.Step s s' → μ s ≤ μ s')
    (hB : ∀ s, M.Reachable s → μ s ≤ B) (hs : M.Reachable s) :
    ∃ s', M.Reaches s s' ∧ ∀ s'', M.Reaches s' s'' → μ s'' = μ s' := by
  have key : ∀ d s, M.Reachable s → B - μ s ≤ d →
      ∃ s', M.Reaches s s' ∧ ∀ s'', M.Reaches s' s'' → μ s'' = μ s' := by
    intro d
    induction d with
    | zero =>
      intro s hs hd
      refine ⟨s, Reaches.refl, fun s'' h => ?_⟩
      have h1 := h.measure_le hmono hs
      have h2 := hB s'' (hs.reaches h)
      omega
    | succ d ih =>
      intro s hs hd
      by_cases hflat : ∀ s'', M.Reaches s s'' → μ s'' = μ s
      · exact ⟨s, Reaches.refl, hflat⟩
      · push Not at hflat
        obtain ⟨a, ha, hne⟩ := hflat
        have hle := ha.measure_le hmono hs
        obtain ⟨s', h', hp⟩ := ih a (hs.reaches ha) (by omega)
        exact ⟨s', ha.trans h', hp⟩
  exact key _ s hs (Nat.le_refl _)

/-- **The completion rule.** Where every reachable unfinished state can
reach one of larger measure, every reachable state can reach a finished
one. -/
theorem exists_reaches_final {μ : σ → ℕ} {B : ℕ} {Final : σ → Prop}
    (hmono : ∀ s s', M.Reachable s → M.Step s s' → μ s ≤ μ s')
    (hB : ∀ s, M.Reachable s → μ s ≤ B)
    (hprog : ∀ s, M.Reachable s → ¬ Final s → ∃ s', M.Reaches s s' ∧ μ s < μ s')
    (hs : M.Reachable s) : ∃ s', M.Reaches s s' ∧ Final s' := by
  obtain ⟨s', h', hflat⟩ := exists_plateau hmono hB hs
  refine ⟨s', h', ?_⟩
  by_contra hf
  obtain ⟨a, ha, hlt⟩ := hprog s' (hs.reaches h') hf
  have := hflat a ha
  omega

end System

end Common

end CLSmith
