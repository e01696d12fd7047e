import CLSmith.Common.System
/-!
# Systems of events

A partial function that says what an event does to a state, and the system of
all its runs. That some events are possible, one after the other, is then a
matter of computation.
-/

namespace CLSmith

namespace Common

variable {σ ε : Type*} (step : σ → ε → Option σ)

/-- Some events, one after the other. -/
def runEvents : σ → List ε → Option σ
  | s, [] => some s
  | s, e :: es => (step s e).bind fun s => runEvents s es

/-- **The system of all runs** from one state. An event without a successor in a state
cannot happen there. -/
def eventSystem (init : σ) : System σ where
  Init s := s = init
  Step s s' := ∃ e, step s e = some s'

variable {step} {init s s' : σ} {es : List ε}

/-- Where events lead is reachable. -/
theorem reachable_runEvents (h : (eventSystem step init).Reachable s)
    (hrun : runEvents step s es = some s') : (eventSystem step init).Reachable s' := by
  induction es generalizing s with
  | nil =>
    obtain rfl := Option.some.inj hrun
    exact h
  | cons e es ih =>
    obtain ⟨s₁, hstep, hrest⟩ := Option.bind_eq_some_iff.mp hrun
    exact ih (h.step ⟨e, hstep⟩) hrest

/-- **The invariant rule**, for events. -/
theorem invariant_of_events {I : σ → Prop} (hinit : I init)
    (hstep : ∀ s e s', I s → step s e = some s' → I s')
    (h : (eventSystem step init).Reachable s) : I s := by
  refine h.invariant (I := I) ?_ ?_
  · rintro s rfl
    exact hinit
  · rintro s s' - hs ⟨e, he⟩
    exact hstep s e s' hs he

end Common

end CLSmith
