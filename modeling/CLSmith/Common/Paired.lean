import Mathlib.Data.Nat.Init
import Mathlib.Order.Basic
/-!
# Two runs of one state program

A program over a state, run from two related states: the rules by which the
two runs return the same and end related. Beside it the loop that goes on for
as long as its round reports a change, and the measure that ends it.
-/

namespace CLSmith

namespace Common

variable {σ α β : Type}

/-- A value read off the state. -/
def reads (g : σ → α) : StateM σ α := return g (← get)

/-- Run from `R`-related states, `m` returns the same and leaves `R'`-related states. -/
def Relates (R R' : σ → σ → Prop) (m : StateM σ α) : Prop :=
  ∀ s t, R s t → (m.run s).1 = (m.run t).1 ∧ R' (m.run s).2 (m.run t).2

namespace Relates

variable {R R' R'' : σ → σ → Prop}

theorem pure (a : α) : Relates R R (Pure.pure a : StateM σ α) :=
  fun _ _ h => ⟨rfl, h⟩

theorem bind {m : StateM σ α} {k : α → StateM σ β} (hm : Relates R R' m)
    (hk : ∀ a, Relates R' R'' (k a)) : Relates R R'' (m >>= k) := by
  intro s t h
  obtain ⟨hval, hrel⟩ := hm s t h
  have hnext := hk (m.run s).1 _ _ hrel
  rw [StateT.run_bind, StateT.run_bind]
  change ((k (m.run s).1).run (m.run s).2).1 = ((k (m.run t).1).run (m.run t).2).1 ∧
    R'' ((k (m.run s).1).run (m.run s).2).2 ((k (m.run t).1).run (m.run t).2).2
  rw [← hval]
  exact hnext

/-- What is read must not tell related states apart. -/
theorem reads {g : σ → α} (h : ∀ s t, R s t → g s = g t) : Relates R R (Common.reads g) :=
  fun s t hst => ⟨h s t hst, hst⟩

theorem modify {g : σ → σ} (h : ∀ s t, R s t → R' (g s) (g t)) :
    Relates R R' (modify g : StateM σ PUnit) :=
  fun s t hst => ⟨rfl, h s t hst⟩

theorem ite {c : Prop} [Decidable c] {m n : StateM σ α} (hm : Relates R R' m)
    (hn : Relates R R' n) : Relates R R' (if c then m else n) := by
  split
  · exact hm
  · exact hn

end Relates

/-! ## A loop that ends when its round reports no change -/

variable (round : StateM σ Bool)

/-- `while (change)`, for at most `n` rounds. -/
def whileChange : ℕ → StateM σ Unit
  | 0 => pure ()
  | n + 1 => do
    if ← round then whileChange n

/-- From `s` the loop comes to an end: its last round starts in `l` and leaves `t`. -/
inductive Exits : σ → σ → σ → Prop
  | stop {s t : σ} (h : round.run s = (false, t)) : Exits s s t
  | again {s s' l t : σ} (h : round.run s = (true, s')) (hs : Exits s' l t) : Exits s l t

variable {round}

/-- The last round reports no change. -/
theorem Exits.last {s l t : σ} (h : Exits round s l t) : round.run l = (false, t) := by
  induction h with
  | stop h => exact h
  | again _ _ ih => exact ih

/-- Related runs of a round make related runs of the loop. -/
theorem Relates.whileChange {R : σ → σ → Prop} (h : Relates R R round) :
    ∀ n, Relates R R (whileChange round n) := by
  intro n
  induction n with
  | zero => exact .pure ()
  | succ n ih =>
    rw [Common.whileChange]
    exact h.bind fun change => .ite ih (.pure ())

end Common

end CLSmith
