import Mathlib.Order.Basic
/-!
# Loops with fuel

A `for` loop whose parts may fail, with the ways its body can complete, and
the rule for it: an invariant and a measure that goes down.
-/

namespace CLSmith

namespace Common

/-- How a statement completes: at its end, or by one of the jumps that leave it. -/
inductive Outcome
  | normal | brk | cont | ret
deriving DecidableEq

/-- The loop goes on after its body. -/
def Outcome.Continues (o : Outcome) : Prop := o = .normal ∨ o = .cont

namespace Loop

variable {σ : Type} (test : σ → Option Bool) (incr : σ → Option σ)
  (body : σ → Option (σ × Outcome))

/-- **The loop** from its test on, for at most `n` rounds. A test, a body or an
increment without a value leaves it without one, as does running out of rounds. -/
def run : ℕ → σ → Option (σ × Outcome)
  | 0, _ => none
  | n + 1, s =>
    match test s with
    | none => none
    | some false => some (s, .normal)
    | some true =>
      match body s with
      | none => none
      | some (s, .brk) => some (s, .normal)
      | some (s, .ret) => some (s, .ret)
      | some (s, _) => (incr s).bind (run n)

variable {test incr body}

/-- What a round does to an invariant `Inv` and a measure: the loop is left
with `Q`, or goes on with the measure less. -/
def Round (test : σ → Option Bool) (incr : σ → Option σ) (body : σ → Option (σ × Outcome))
    (Inv Q : σ → Prop) (μ : σ → ℕ) (s : σ) : Prop :=
  (test s = some false ∧ Q s) ∨
    (test s = some true ∧ ∃ s' o, body s = some (s', o) ∧ (¬ o.Continues → Q s') ∧
      (o.Continues → ∃ s'', incr s' = some s'' ∧ Inv s'' ∧ μ s'' < μ s))

/-- **The rule**: the loop ends, and ends in `Q`. -/
theorem run_total {Inv Q : σ → Prop} {μ : σ → ℕ}
    (hround : ∀ s, Inv s → Round test incr body Inv Q μ s) {n : ℕ} {s : σ} (hs : Inv s)
    (hn : μ s < n) : ∃ s' o, run test incr body n s = some (s', o) ∧ Q s' := by
  induction n generalizing s with
  | zero => exact absurd hn (Nat.not_lt_zero _)
  | succ n ih =>
    unfold run
    rcases hround s hs with ⟨htest, hQ⟩ | ⟨htest, s', o, hbody, hleave, hgo⟩
    · rw [htest]
      exact ⟨s, .normal, rfl, hQ⟩
    · rw [htest]
      simp only [hbody]
      have hnext : o.Continues →
          ∃ t o', (incr s').bind (run test incr body n) = some (t, o') ∧ Q t := by
        intro ho
        obtain ⟨s'', hincr, hinv, hμ⟩ := hgo ho
        rw [hincr, Option.bind_some]
        exact ih hinv (by omega)
      cases o with
      | normal => exact hnext (.inl rfl)
      | cont => exact hnext (.inr rfl)
      | brk => exact ⟨s', .normal, rfl, hleave (by simp [Outcome.Continues])⟩
      | ret => exact ⟨s', .ret, rfl, hleave (by simp [Outcome.Continues])⟩

end Loop

end Common

end CLSmith
