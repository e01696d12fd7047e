import CLSmith.Common.Paired
/-!
# Before and after a state program

Rules of pre- and postconditions for a program over a state. Of the values it
returns nothing is said, but for one that is read off the state where the
precondition tells what it is.
-/

namespace CLSmith

namespace Common

variable {σ α β : Type}

/-- **A triple**: run from a state with `P`, `m` ends in one with `Q`. A state program
always ends, so partial and total correctness are the same. -/
def Triple (P : σ → Prop) (m : StateM σ α) (Q : σ → Prop) : Prop := ∀ s, P s → Q (m.run s).2

namespace Triple

variable {P P' Q Q' R : σ → Prop} {m n : StateM σ α}

/-- A stronger precondition, a weaker postcondition. -/
theorem imp (h : Triple P m Q) (hP : ∀ s, P' s → P s) (hQ : ∀ s, Q s → Q' s) :
    Triple P' m Q' :=
  fun s hs => hQ _ (h s (hP s hs))

theorem pure (a : α) : Triple P (Pure.pure a : StateM σ α) P := fun _ h => h

theorem bind {k : α → StateM σ β} (hm : Triple P m Q) (hk : ∀ a, Triple Q (k a) R) :
    Triple P (m >>= k) R := by
  intro s h
  rw [StateT.run_bind]
  exact hk (m.run s).1 _ (hm s h)

theorem reads (g : σ → α) : Triple P (Common.reads g) P := fun _ h => h

/-- What is read goes on as the value the precondition gives it. -/
theorem reads_bind {g : σ → α} {a : α} {k : α → StateM σ β} (hg : ∀ s, P s → g s = a)
    (hk : Triple P (k a) Q) : Triple P (Common.reads g >>= k) Q := by
  intro s h
  have hrun : (Common.reads g >>= k).run s = (k (g s)).run s := rfl
  rw [hrun, hg s h]
  exact hk s h

theorem modify {g : σ → σ} (h : ∀ s, P s → Q (g s)) :
    Triple P (modify g : StateM σ PUnit) Q :=
  h

theorem ite {c : Prop} [Decidable c] (hm : Triple P m Q) (hn : Triple P n Q) :
    Triple P (if c then m else n) Q := by
  split
  · exact hm
  · exact hn

variable {round : StateM σ Bool}

/-- What a round keeps, the loop keeps. -/
theorem whileChange (h : Triple P round P) : ∀ n, Triple P (whileChange round n) P := by
  intro n
  induction n with
  | zero => exact .pure ()
  | succ n ih =>
    rw [Common.whileChange]
    exact h.bind fun change => .ite ih (.pure ())

/-- What the first round brings about and the others keep holds after the loop. -/
theorem whileChange_succ (hfirst : Triple P round Q) (h : Triple Q round Q) (n : ℕ) :
    Triple P (Common.whileChange round (n + 1)) Q := by
  rw [Common.whileChange]
  exact hfirst.bind fun change => .ite (h.whileChange n) (.pure ())

end Triple

end Common

end CLSmith
