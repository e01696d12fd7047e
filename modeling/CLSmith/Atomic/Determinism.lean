import CLSmith.Atomic.Sections
import Mathlib.Algebra.BigOperators.Group.Finset.Basic
/-!
# Atomic sections do not depend on the schedule

Off its sections every thread follows one thread on its own, for a section
writes nothing the rest of the program reads. So all threads evaluate a test
the same number of times, the sections entered are the same in every run,
and a steady section sums to the same value whichever evaluation wins.
-/

namespace CLSmith

namespace Atomic

open Common Imp

variable {V : Type} [DecidableEq V]

/-! ## Sections -/

namespace Section

variable {S : Section V} {ρ σ : Env V}

/-- What a section's outcome can depend on. -/
def scope (S : Section V) : Set V := {x | x ∈ S.body.reads ∨ x ∈ S.own}

omit [DecidableEq V] in
theorem var_mem_own {l : Local V} (h : l ∈ S.locals) : l.var ∈ S.own :=
  List.mem_append_left _ (List.mem_map.mpr ⟨l, h, rfl⟩)

/-- Entering a section touches its own variables only. -/
theorem enter_of_notMem {x : V} (h : x ∉ S.own) : S.enter ρ x = ρ x := by
  unfold enter
  rw [declare_of_notMem, if_neg h]
  intro d hd he
  obtain ⟨l, hl, rfl⟩ := List.mem_map.mp hd
  exact h (he ▸ var_mem_own hl)

/-- Entered with the same outer variables, a section starts the same. -/
theorem enter_agree (h : ∀ x ∈ S.body.reads, x ∉ S.own → ρ x = σ x) :
    Agree S.scope (S.enter ρ) (S.enter σ) := by
  refine Agree.declare (fun x hx => ?_) _
  by_cases hown : x ∈ S.own
  · simp only [hown, if_true]
  · simp only [hown, if_false]
    exact h x (hx.resolve_right hown) hown

omit [DecidableEq V] in
/-- The result is a matter of the section's own variables. -/
theorem result_congr (h : Agree S.scope ρ σ) : S.result ρ = S.result σ := by
  unfold result
  refine congrArg List.sum (List.map_congr_left fun l hl => ?_)
  have hvar := h l.var (Or.inr (var_mem_own (List.mem_filter.mp hl).1))
  rw [hvar]

end Section

namespace Launch

variable {L : Launch V}

/-- The variables of the sections. -/
def inner (L : Launch V) : Set V := {x | ∃ a, x ∈ (L.program.sections a).own}

theorem reads_outer {a : ExpressionAtomicAccess} {x : V}
    (h : x ∈ (L.program.sections a).body.reads) (hown : x ∉ (L.program.sections a).own) :
    x ∈ L.innerᶜ := by
  rintro ⟨b, hb⟩
  exact hown (L.program.scopedBody b a x hb h)

theorem own_inner {a : ExpressionAtomicAccess} {x : V} (h : x ∈ L.innerᶜ) :
    x ∉ (L.program.sections a).own := fun ha => h ⟨a, ha⟩

theorem body_readsIn (a : ExpressionAtomicAccess) :
    ReadsIn (L.program.sections a).scope [(L.program.sections a).body] := by
  intro s hs x hx
  obtain rfl := List.mem_singleton.mp hs
  exact Or.inl hx

theorem body_writesIn (a : ExpressionAtomicAccess) :
    WritesIn {x | x ∈ (L.program.sections a).own} [(L.program.sections a).body] := by
  intro s hs
  obtain rfl := List.mem_singleton.mp hs
  exact ⟨L.program.writesOwn a, fun x hx => List.mem_append_right _ hx⟩

/-- The program off its sections keeps to the outer variables. -/
theorem solo_outer {u : Solo V ExpressionAtomicAccess} (h : Solo.Runs L.solo u) :
    ReadsIn L.innerᶜ u.left ∧ WritesIn L.innerᶜ u.left := by
  have hread : ReadsIn L.innerᶜ L.solo.left := by
    rintro s hs x hx ⟨a, ha⟩
    obtain rfl := List.mem_singleton.mp hs
    exact (L.program.scopedMain a x ha).1 hx
  have hwrite : WritesIn L.innerᶜ L.solo.left := by
    intro s hs
    obtain rfl := List.mem_singleton.mp hs
    constructor
    · rintro x hx ⟨a, ha⟩
      exact (L.program.scopedMain a x ha).2.1 hx
    · rintro x hx ⟨a, ha⟩
      exact (L.program.scopedMain a x ha).2.2 hx
  exact ⟨h.readsIn hread, (h.frame hwrite).1⟩

/-! ## Following the thread on its own -/

/-- **A section's run from an evaluation of its test**, as far as `k`. The evaluation
is one that the thread comes to when it runs alone, which is how the outcome of a
section can be told without the other threads. -/
def Ran (L : Launch V) (a : ExpressionAtomicAccess) (ρ : Env V) (k : List (Stmt V Empty)) :
    Prop :=
  ∃ w k₀ τ, Solo.Runs L.solo w ∧ w.left = .mark a :: k₀ ∧
    Runs ((L.program.sections a).enter w.env, [(L.program.sections a).body]) (τ, k) ∧
    Agree (L.program.sections a).scope τ ρ ∧ ReadsIn (L.program.sections a).scope k ∧
    WritesIn {x | x ∈ (L.program.sections a).own} k

/-- **A thread follows `u`**: it has the same left to do and the same outer
variables, and in a section it has run the section from some evaluation. -/
structure Follows (L : Launch V) (th : Thread V) (u : Solo V ExpressionAtomicAccess) :
    Prop where
  reach : Solo.Runs L.solo u
  left : th.left = u.left
  env : Agree L.innerᶜ th.env u.env
  inside : ∀ a k, th.inside = some (a, k) → L.Ran a th.env k

namespace Follows

variable {th : Thread V} {u : Solo V ExpressionAtomicAccess} {a : ExpressionAtomicAccess}
  {k : List (Stmt V ExpressionAtomicAccess)} (h : Follows L th u)
include h

/-- A step of the program is a step of the thread on its own. -/
theorem private_step {c : Config V ExpressionAtomicAccess} (hin : th.inside = none)
    (hc : step (th.env, th.left) = some c) :
    ∃ u', Follows L { th with env := c.1, left := c.2 } u' ∧ u'.passed = u.passed := by
  obtain ⟨ρ', k'⟩ := c
  rw [h.left] at hc
  obtain ⟨hr, hw⟩ := solo_outer h.reach
  obtain ⟨-, σ', hσ, hρ⟩ := step_agree hc hr h.env
  refine ⟨⟨σ', k', u.passed⟩, ⟨h.reach.tail (Solo.step_of_step hσ), rfl, hρ, ?_⟩, rfl⟩
  intro a k ha
  rw [show th.inside = some (a, k) from ha] at hin
  cases hin

theorem passed (hl : th.left = .mark a :: k) :
    Solo.Runs L.solo ⟨u.env, k, u.passed ++ [a]⟩ :=
  h.reach.tail (Solo.step_mark (h.left ▸ hl))

/-- A test that fails is passed. -/
theorem pass (hin : th.inside = none) (hl : th.left = .mark a :: k) :
    Follows L { th with left := k } ⟨u.env, k, u.passed ++ [a]⟩ := by
  refine ⟨h.passed hl, rfl, h.env, fun b k' hb => ?_⟩
  rw [show th.inside = some (b, k') from hb] at hin
  cases hin

/-- A test that holds is passed too, with the section entered. -/
theorem enter (hl : th.left = .mark a :: k) :
    Follows L ⟨(L.program.sections a).enter th.env, some (a, [(L.program.sections a).body]), k⟩
      ⟨u.env, k, u.passed ++ [a]⟩ := by
  refine ⟨h.passed hl, rfl, fun x hx => ?_, fun b k' hb => ?_⟩
  · show (L.program.sections a).enter th.env x = u.env x
    rw [Section.enter_of_notMem (own_inner hx)]
    exact h.env x hx
  · cases hb
    refine ⟨u, k, _, h.reach, h.left ▸ hl, .refl, ?_, body_readsIn a, body_writesIn a⟩
    exact Section.enter_agree fun x hx hown => (h.env x (reads_outer hx hown)).symm

/-- A step inside a section leaves the outer variables alone. -/
theorem inside_step {k : List (Stmt V Empty)} {c : Config V Empty}
    (hin : th.inside = some (a, k)) (hc : step (th.env, k) = some c) :
    Follows L { th with env := c.1, inside := some (a, c.2) } u := by
  obtain ⟨ρ', k'⟩ := c
  obtain ⟨w, k₀, τ, hw, hl, hruns, hτ, hread, hwrite⟩ := h.inside a k hin
  obtain ⟨hread', τ', hτstep, hτ'⟩ := step_agree hc hread hτ.symm
  obtain ⟨hwrite', hframe⟩ := step_frame hc hwrite
  refine ⟨h.reach, h.left, fun x hx => ?_, fun b k'' hb => ?_⟩
  · exact (hframe x (own_inner hx)).trans (h.env x hx)
  · cases hb
    exact ⟨w, k₀, τ', hw, hl, hruns.tail hτstep, hτ'.symm, hread', hwrite'⟩

theorem leave : Follows L { th with inside := none } u :=
  ⟨h.reach, h.left, h.env, fun _ _ ha => nomatch ha⟩

end Follows

/-- A value a section can sum to. -/
def Outcome (L : Launch V) (a : ExpressionAtomicAccess) (v : Word) : Prop :=
  ∃ ρ, L.Ran a ρ [] ∧ v = (L.program.sections a).result ρ

/-- **A steady section has one outcome.** -/
theorem Steady.outcome {a : ExpressionAtomicAccess} {v v' : Word} (hs : L.Steady)
    (h : L.Outcome a v) (h' : L.Outcome a v') : v = v' := by
  obtain ⟨ρ, ⟨w, k, τ, hw, hl, hrun, hτ, -, -⟩, rfl⟩ := h
  obtain ⟨ρ', ⟨w', k', τ', hw', hl', hrun', hτ', -, -⟩, rfl⟩ := h'
  have hagree := Section.enter_agree (hs a w w' k k' hw hw' hl hl')
  obtain ⟨-, σ, hσ, hτσ⟩ := hrun.agree (body_readsIn a) hagree
  obtain rfl : σ = τ' := hσ.final hrun'
  rw [← Section.result_congr hτ, ← Section.result_congr hτ']
  exact Section.result_congr hτσ


/-! ## Steps -/

variable {g g' : State V} {t : ℕ} {a : ExpressionAtomicAccess}

/-- **What a step of a thread can be.** It leaves a section with its sum, goes on
within one, evaluates the test of one and enters it or passes by, or takes a step that
is none of these. -/
inductive Moves (L : Launch V) (g : State V) (t : ℕ) : State V → Prop
  | leave (a : ExpressionAtomicAccess) (hin : (g.thread t).inside = some (a, [])) :
    Moves L g t ((g.atomicAdd a ((L.program.sections a).result (g.thread t).env)).setThread t
      { g.thread t with inside := none })
  | within (a : ExpressionAtomicAccess) (k : List (Stmt V Empty)) (c : Config V Empty)
      (hin : (g.thread t).inside = some (a, k)) (hc : step ((g.thread t).env, k) = some c) :
    Moves L g t (g.setThread t { g.thread t with env := c.1, inside := some (a, c.2) })
  | enter (a : ExpressionAtomicAccess) (k : List (Stmt V ExpressionAtomicAccess))
      (hin : (g.thread t).inside = none) (hl : (g.thread t).left = .mark a :: k)
      (hv : g.atomicInput a = BitVec.ofNat 32 (L.program.sections a).value) :
    Moves L g t (((g.atomicInc a).enter t a).setThread t
      ⟨(L.program.sections a).enter (g.thread t).env, some (a, [(L.program.sections a).body]), k⟩)
  | pass (a : ExpressionAtomicAccess) (k : List (Stmt V ExpressionAtomicAccess))
      (hin : (g.thread t).inside = none) (hl : (g.thread t).left = .mark a :: k)
      (hv : g.atomicInput a ≠ BitVec.ofNat 32 (L.program.sections a).value) :
    Moves L g t ((g.atomicInc a).setThread t { g.thread t with left := k })
  | alone (c : Config V ExpressionAtomicAccess) (hin : (g.thread t).inside = none)
      (hc : step ((g.thread t).env, (g.thread t).left) = some c) :
    Moves L g t (g.setThread t { g.thread t with env := c.1, left := c.2 })

theorem moves (h : L.stepThread g t = some g') : L.Moves g t g' := by
  unfold stepThread at h
  split at h
  · next a hin =>
    cases h
    exact .leave a hin
  · next a k hk hin =>
    obtain ⟨c, hc, rfl⟩ := Option.map_eq_some_iff.mp h
    exact .within a k c hin hc
  · next hin =>
    split at h
    · next a k hl =>
      split at h
      · next hv =>
        cases h
        exact .enter a k hin hl hv
      · next hv =>
        cases h
        exact .pass a k hin hl hv
    · obtain ⟨c, hc, rfl⟩ := Option.map_eq_some_iff.mp h
      exact .alone c hin hc

/-! ## Evaluations -/

/-- **Each thread follows the thread on its own**, and a test has been
evaluated as often as the threads have passed it. -/
structure Tracked (L : Launch V) (g : State V) (u : ℕ → Solo V ExpressionAtomicAccess) :
    Prop where
  follows : ∀ t < L.size, L.Follows (g.thread t) (u t)
  evals : ∀ a, g.evals a = ∑ t ∈ Finset.range L.size, (u t).passed.count a

omit [DecidableEq V] in
/-- One thread further on. -/
theorem sum_count_update {n : ℕ} (u : ℕ → Solo V ExpressionAtomicAccess)
    (x : Solo V ExpressionAtomicAccess) (ht : t < n) (a : ExpressionAtomicAccess) :
    (∑ s ∈ Finset.range n, (Function.update u t x s).passed.count a) + (u t).passed.count a =
      (∑ s ∈ Finset.range n, (u s).passed.count a) + x.passed.count a := by
  have hmem : t ∈ Finset.range n := Finset.mem_range.mpr ht
  have hrest : ∀ s ∈ (Finset.range n).erase t,
      (Function.update u t x s).passed.count a = (u s).passed.count a := by
    intro s hs
    rw [Function.update_of_ne (Finset.ne_of_mem_erase hs)]
  rw [← Finset.sum_erase_add _ _ hmem, ← Finset.sum_erase_add _ _ hmem,
    Finset.sum_congr rfl hrest, Function.update_self]
  omega

/-- The thread that took the step follows on from where it was. -/
theorem Tracked.update {u : ℕ → Solo V ExpressionAtomicAccess}
    {x : Solo V ExpressionAtomicAccess} {th : Thread V} (h : Tracked L g u) (ht : t < L.size)
    (hth : g'.thread = Function.update g.thread t th) (hx : L.Follows th x)
    (hev : ∀ a, g'.evals a + (u t).passed.count a = g.evals a + x.passed.count a) :
    Tracked L g' (Function.update u t x) := by
  constructor
  · intro s hs
    by_cases hst : s = t
    · subst hst
      rw [hth, Function.update_self, Function.update_self]
      exact hx
    · rw [hth, Function.update_of_ne hst, Function.update_of_ne hst]
      exact h.follows s hs
  · intro a
    have hsum := sum_count_update u x ht a
    have hold := h.evals a
    have hnew := hev a
    omega

omit [DecidableEq V] in
/-- A test evaluated once more. -/
theorem evals_pass (g : State V) (u : Solo V ExpressionAtomicAccess)
    (a b : ExpressionAtomicAccess) :
    (g.atomicInc a).evals b + u.passed.count b = g.evals b + (u.passed ++ [a]).count b := by
  show Function.update g.evals a (g.evals a + 1) b + _ = _
  rw [List.count_append, List.count_singleton]
  by_cases hab : b = a
  · subst hab
    rw [Function.update_self]
    simp only [beq_self_eq_true, if_true]
    omega
  · have hba : (a == b) = false := beq_false_of_ne (Ne.symm hab)
    rw [Function.update_of_ne hab, hba]
    simp only [Bool.false_eq_true, if_false]
    omega

theorem Tracked.step {u : ℕ → Solo V ExpressionAtomicAccess} (h : Tracked L g u)
    (ht : t < L.size) (hstep : L.stepThread g t = some g') : ∃ u', Tracked L g' u' := by
  have hf := h.follows t ht
  cases moves hstep with
  | leave a hin => exact ⟨_, h.update ht rfl hf.leave fun _ => rfl⟩
  | within a k c hin hc => exact ⟨_, h.update ht rfl (hf.inside_step hin hc) fun _ => rfl⟩
  | enter a k hin hl hv => exact ⟨_, h.update ht rfl (hf.enter hl) fun b => evals_pass g (u t) a b⟩
  | pass a k hin hl hv => exact ⟨_, h.update ht rfl (hf.pass hin hl) fun b =>
      evals_pass g (u t) a b⟩
  | alone c hin hc =>
    obtain ⟨x, hx, hpassed⟩ := hf.private_step hin hc
    exact ⟨_, h.update ht rfl hx fun b => by rw [hpassed]; rfl⟩

theorem exists_tracked (h : L.system.Reachable g) : ∃ u, Tracked L g u := by
  refine h.invariant (I := fun g => ∃ u, Tracked L g u) ?_ ?_
  · rintro g rfl
    refine ⟨fun _ => L.solo, fun t _ => ⟨.refl, rfl, fun _ _ => rfl, fun a k ha => nomatch ha⟩, ?_⟩
    intro a
    exact (Finset.sum_eq_zero fun _ _ => rfl).symm
  · rintro g g' - ⟨u, hu⟩ ⟨t, ht, hstep⟩
    exact hu.step ht hstep

/-- **Two complete runs evaluate each test equally often.** -/
theorem evals_finished (h : L.system.Reachable g) (h' : L.system.Reachable g')
    (hf : L.Finished g) (hf' : L.Finished g') : g.evals = g'.evals := by
  obtain ⟨u, hu⟩ := exists_tracked h
  obtain ⟨u', hu'⟩ := exists_tracked h'
  have hend : ∀ {x : Solo V ExpressionAtomicAccess}, x.left = [] → x.step = none := by
    intro x hx
    unfold Solo.step
    rw [hx]
    rfl
  funext a
  rw [hu.evals a, hu'.evals a]
  refine Finset.sum_congr rfl fun t ht => ?_
  have ht' := Finset.mem_range.mp ht
  have hx := hend ((hu.follows t ht').left ▸ (hf t ht').2)
  have hx' := hend ((hu'.follows t ht').left ▸ (hf' t ht').2)
  rw [final_unique (hu.follows t ht').reach (hu'.follows t ht').reach hx hx']


/-! ## The phases of a section -/

/-- The section a thread is in. -/
def inSection (g : State V) (t : ℕ) : Option ExpressionAtomicAccess :=
  (g.thread t).inside.map Prod.fst

/-- The evaluation that enters a section, counted from 0. -/
def winner (L : Launch V) (a : ExpressionAtomicAccess) : ℕ :=
  (BitVec.ofNat 32 (L.program.sections a).value).toNat

/-- **The life of a section**: not entered yet, with a thread in it, or
left with an outcome. -/
inductive Phase (L : Launch V) (g : State V) (a : ExpressionAtomicAccess) : Prop
  | before (hev : g.evals a ≤ L.winner a) (hent : (g.entries a).length = 0)
    (hsv : g.specialValues a = 0) (hin : ∀ t < L.size, inSection g t ≠ some a)
  | during (t₀ : ℕ) (ht₀ : t₀ < L.size) (hev : L.winner a < g.evals a)
    (hent : (g.entries a).length = 1) (hsv : g.specialValues a = 0)
    (hin : ∀ t < L.size, inSection g t = some a ↔ t = t₀)
  | after (hev : L.winner a < g.evals a) (hent : (g.entries a).length = 1)
    (hsv : L.Outcome a (g.specialValues a)) (hin : ∀ t < L.size, inSection g t ≠ some a)

/-! A section goes from phase to phase. -/

namespace Phase

variable (h : L.Phase g a) (hent : g'.entries a = g.entries a)
  (hsv : g'.specialValues a = g.specialValues a)
  (hin : ∀ s, inSection g' s = some a ↔ inSection g s = some a)
include h

section

include hent hsv hin

/-- A step that touches neither the section nor its test. -/
theorem congr (hev : g'.evals a = g.evals a) : L.Phase g' a := by
  cases h with
  | before h₁ h₂ h₃ h₄ =>
    exact .before (hev ▸ h₁) (hent ▸ h₂) (hsv ▸ h₃) fun s hs he => h₄ s hs ((hin s).mp he)
  | during t₀ h₀ h₁ h₂ h₃ h₄ =>
    exact .during t₀ h₀ (hev ▸ h₁) (hent ▸ h₂) (hsv ▸ h₃) fun s hs => (hin s).trans (h₄ s hs)
  | after h₁ h₂ h₃ h₄ =>
    exact .after (hev ▸ h₁) (hent ▸ h₂) (hsv ▸ h₃) fun s hs he => h₄ s hs ((hin s).mp he)

/-- The test evaluated in vain. -/
theorem pass (hne : g.evals a ≠ L.winner a) (hev : g'.evals a = g.evals a + 1) :
    L.Phase g' a := by
  cases h with
  | before h₁ h₂ h₃ h₄ =>
    have h₁' : g'.evals a ≤ L.winner a := by omega
    exact .before h₁' (hent ▸ h₂) (hsv ▸ h₃) fun s hs he => h₄ s hs ((hin s).mp he)
  | during t₀ h₀ h₁ h₂ h₃ h₄ =>
    have h₁' : L.winner a < g'.evals a := by omega
    exact .during t₀ h₀ h₁' (hent ▸ h₂) (hsv ▸ h₃) fun s hs => (hin s).trans (h₄ s hs)
  | after h₁ h₂ h₃ h₄ =>
    have h₁' : L.winner a < g'.evals a := by omega
    exact .after h₁' (hent ▸ h₂) (hsv ▸ h₃) fun s hs he => h₄ s hs ((hin s).mp he)

end

/-- The test evaluated by the winner. -/
theorem enter (ht : t < L.size) (heq : g.evals a = L.winner a)
    (hev : g'.evals a = g.evals a + 1)
    (hent : (g'.entries a).length = (g.entries a).length + 1)
    (hsv : g'.specialValues a = g.specialValues a)
    (hin : ∀ s, inSection g' s = some a ↔ s = t ∨ inSection g s = some a) : L.Phase g' a := by
  cases h with
  | before h₁ h₂ h₃ h₄ =>
    refine .during t ht (by omega) (by omega) (hsv ▸ h₃) fun s hs => ?_
    rw [hin s]
    exact or_iff_left (h₄ s hs)
  | during t₀ h₀ h₁ h₂ h₃ h₄ => omega
  | after h₁ h₂ h₃ h₄ => omega

/-- The end of the section. -/
theorem leave {v : Word} (ht : t < L.size) (hhere : inSection g t = some a)
    (hev : g'.evals a = g.evals a) (hent : g'.entries a = g.entries a)
    (hsv : g'.specialValues a = g.specialValues a + v) (hout : L.Outcome a v)
    (hin : ∀ s, inSection g' s = some a ↔ s ≠ t ∧ inSection g s = some a) : L.Phase g' a := by
  cases h with
  | before h₁ h₂ h₃ h₄ => exact absurd hhere (h₄ t ht)
  | after h₁ h₂ h₃ h₄ => exact absurd hhere (h₄ t ht)
  | during t₀ h₀ h₁ h₂ h₃ h₄ =>
    refine .after (hev ▸ h₁) (hent ▸ h₂) ?_ fun s hs he => ?_
    · have hv : g'.specialValues a = v := by
        rw [hsv, h₃]
        exact BitVec.zero_add v
      rw [hv]
      exact hout
    · obtain ⟨hst, hs'⟩ := (hin s).mp he
      have hs₀ := (h₄ s hs).mp hs'
      have ht₀ := (h₄ t ht).mp hhere
      omega

end Phase

omit [DecidableEq V] in
/-- The section of the thread that took the step. -/
theorem inSection_update {th : Thread V} (hth : g'.thread = Function.update g.thread t th) :
    inSection g' = Function.update (inSection g) t (th.inside.map Prod.fst) := by
  funext s
  unfold inSection
  rw [hth]
  by_cases hst : s = t
  · subst hst
    rw [Function.update_self, Function.update_self]
  · rw [Function.update_of_ne hst, Function.update_of_ne hst]

omit [DecidableEq V] in
theorem inSection_iff {th : Thread V} (hth : g'.thread = Function.update g.thread t th) (s : ℕ) :
    inSection g' s = some a ↔
      (s = t ∧ th.inside.map Prod.fst = some a) ∨ (s ≠ t ∧ inSection g s = some a) := by
  rw [inSection_update hth]
  by_cases hst : s = t
  · subst hst
    rw [Function.update_self]
    exact ⟨fun h => Or.inl ⟨rfl, h⟩, fun h => h.elim And.right fun h => absurd rfl h.1⟩
  · rw [Function.update_of_ne hst]
    exact ⟨fun h => Or.inr ⟨hst, h⟩, fun h => h.elim (fun h => absurd h.1 hst) And.right⟩

omit [DecidableEq V] in
/-- The thread that took the step was in the section as it is now. -/
theorem inSection_same {th : Thread V} (hth : g'.thread = Function.update g.thread t th)
    (hold : th.inside.map Prod.fst = some a ↔ inSection g t = some a) (s : ℕ) :
    inSection g' s = some a ↔ inSection g s = some a := by
  rw [inSection_iff hth, hold]
  by_cases hst : s = t
  · subst hst
    exact ⟨fun h => h.elim And.right And.right, fun h => Or.inl ⟨rfl, h⟩⟩
  · exact ⟨fun h => h.elim (fun h => absurd h.1 hst) And.right, fun h => Or.inr ⟨hst, h⟩⟩

/-- The counter of a section has counted the evaluations of its test. -/
theorem atomicInput_eq (h : L.system.Reachable g) (a : ExpressionAtomicAccess) :
    g.atomicInput a = BitVec.ofNat 32 (g.evals a) := by
  refine h.invariant (I := fun g => ∀ a, g.atomicInput a = BitVec.ofNat 32 (g.evals a))
    (fun g hg a => by rw [hg]; rfl) ?_ a
  have hinc : ∀ (g : State V) (b a : ExpressionAtomicAccess),
      (∀ a, g.atomicInput a = BitVec.ofNat 32 (g.evals a)) →
      (g.atomicInc b).atomicInput a = BitVec.ofNat 32 ((g.atomicInc b).evals a) := by
    intro g b a hg
    show Function.update g.atomicInput b _ a = BitVec.ofNat 32 (Function.update g.evals b _ a)
    by_cases hab : a = b
    · subst hab
      rw [Function.update_self, Function.update_self, hg a]
      exact (BitVec.ofNat_add (g.evals a) 1).symm
    · rw [Function.update_of_ne hab, Function.update_of_ne hab]
      exact hg a
  rintro g g' - hg ⟨t, -, hstep⟩ a
  cases moves hstep with
  | leave b hin => exact hg a
  | within b k c hin hc => exact hg a
  | enter b k hin hl hv => exact hinc g b a hg
  | pass b k hin hl hv => exact hinc g b a hg
  | alone c hin hc => exact hg a

/-- **A test holds at one evaluation only**, before the counter comes round. -/
theorem test_iff (h : L.system.Reachable g) (hb : g.evals a < 2 ^ 32) :
    g.atomicInput a = BitVec.ofNat 32 (L.program.sections a).value ↔ g.evals a = L.winner a := by
  rw [atomicInput_eq h, winner, ← BitVec.toNat_inj, BitVec.toNat_ofNat, Nat.mod_eq_of_lt hb]

/-- A step evaluates a test at most once, and takes no evaluation back. -/
theorem evals_step (hstep : L.stepThread g t = some g') :
    g.evals a ≤ g'.evals a ∧ g'.evals a ≤ g.evals a + 1 := by
  have hinc : ∀ b, g.evals a ≤ (g.atomicInc b).evals a ∧
      (g.atomicInc b).evals a ≤ g.evals a + 1 := by
    intro b
    show g.evals a ≤ Function.update g.evals b (g.evals b + 1) a ∧
      Function.update g.evals b (g.evals b + 1) a ≤ g.evals a + 1
    by_cases hab : a = b
    · subst hab
      rw [Function.update_self]
      omega
    · rw [Function.update_of_ne hab]
      omega
  have hsame : g.evals a ≤ g.evals a ∧ g.evals a ≤ g.evals a + 1 := by omega
  cases moves hstep with
  | leave b hin => exact hsame
  | within b k c hin hc => exact hsame
  | enter b k hin hl hv => exact hinc b
  | pass b k hin hl hv => exact hinc b
  | alone c hin hc => exact hsame

theorem Phase.step (hr : L.system.Reachable g) (ht : t < L.size)
    (hstep : L.stepThread g t = some g') (hb : g'.evals a < 2 ^ 32) (h : L.Phase g a) :
    L.Phase g' a := by
  have hb₀ : g.evals a < 2 ^ 32 := Nat.lt_of_le_of_lt (evals_step hstep).1 hb
  have hat : ∀ o, (g.thread t).inside = o → (inSection g t = some a ↔ o.map Prod.fst = some a) := by
    rintro _ rfl
    rfl
  cases moves hstep with
  | within b k c hin hc => exact h.congr rfl rfl (inSection_same rfl (hat _ hin).symm) rfl
  | alone c hin hc => exact h.congr rfl rfl (inSection_same rfl Iff.rfl) rfl
  | pass b k hin hl hv =>
    have hsame : ∀ s, inSection ((g.atomicInc b).setThread t { g.thread t with left := k }) s =
        some a ↔ inSection g s = some a := inSection_same rfl Iff.rfl
    by_cases hab : a = b
    · subst hab
      -- the counter was at another value, so that the phase goes on
      have hne : g.evals a ≠ L.winner a := fun he => hv ((test_iff hr hb₀).mpr he)
      exact h.pass rfl rfl hsame hne (Function.update_self ..)
    · exact h.congr rfl rfl hsame (Function.update_of_ne hab ..)
  | enter b k hin hl hv =>
    by_cases hab : a = b
    · subst hab
      -- the one evaluation that the test of the section is true for
      have heq : g.evals a = L.winner a := (test_iff hr hb₀).mp hv
      refine h.enter ht heq (Function.update_self ..) ?_ rfl fun s => ?_
      · show ((g.entered ++ [(t, a)]).filter _).length = (g.entered.filter _).length + 1
        simp
      · rw [inSection_iff (g := g) rfl]
        by_cases hst : s = t
        · simp [hst]
        · simp [hst]
    · refine h.congr ?_ rfl (inSection_same rfl ?_) (Function.update_of_ne hab ..)
      · show (g.entered ++ [(t, b)]).filter _ = g.entered.filter _
        simp [Ne.symm hab]
      · rw [hat _ hin]
        simp [Ne.symm hab]
  | leave b hin =>
    by_cases hab : a = b
    · subst hab
      obtain ⟨u, hu⟩ := exists_tracked hr
      refine h.leave ht ((hat _ hin).mpr rfl) rfl rfl (Function.update_self ..)
        ⟨_, (hu.follows t ht).inside a [] hin, rfl⟩ fun s => ?_
      rw [inSection_iff (g := g) rfl]
      simp
    · refine h.congr rfl (Function.update_of_ne hab ..) (inSection_same rfl ?_) rfl
      rw [hat _ hin]
      simp [Ne.symm hab]

/-- **A section is in one of its phases** as long as its counter has not
come round. -/
theorem phase (h : L.system.Reachable g) (hb : g.evals a < 2 ^ 32) : L.Phase g a := by
  refine h.invariant (I := fun g => g.evals a < 2 ^ 32 → L.Phase g a) ?_ ?_ hb
  · rintro g rfl -
    exact .before (Nat.zero_le _) rfl rfl fun t _ => nofun
  · rintro g g' hr ih ⟨t, ht, hstep⟩ hb'
    exact (ih (Nat.lt_of_le_of_lt (evals_step hstep).1 hb')).step hr ht hstep hb'

theorem entries_le (h : L.system.Reachable g) (hb : g.Bounded) (a : ExpressionAtomicAccess) :
    (g.entries a).length ≤ 1 := by
  cases phase h (hb a) with
  | before _ hent => omega
  | during _ _ _ hent => omega
  | after _ hent => omega

/-- **The special values of two complete runs.** -/
theorem Steady.specialValues (hs : L.Steady) (h : L.system.Reachable g)
    (h' : L.system.Reachable g') (hf : L.Finished g) (hf' : L.Finished g') (hb : g.Bounded)
    (hb' : g'.Bounded) : g.specialValues = g'.specialValues := by
  have hev := evals_finished h h' hf hf'
  have hout : ∀ {g}, L.system.Reachable g → L.Finished g → g.Bounded → ∀ a,
      (g.evals a ≤ L.winner a ∧ g.specialValues a = 0) ∨
        (L.winner a < g.evals a ∧ L.Outcome a (g.specialValues a)) := by
    intro g h hf hb a
    cases phase h (hb a) with
    | before hev _ hsv _ => exact Or.inl ⟨hev, hsv⟩
    | after hev _ hsv _ => exact Or.inr ⟨hev, hsv⟩
    | during t₀ ht₀ hev hent hsv hin =>
      have hthere := (hin t₀ ht₀).mpr rfl
      unfold inSection at hthere
      rw [(hf t₀ ht₀).1] at hthere
      cases hthere
  funext a
  have heq : g.evals a = g'.evals a := congrFun hev a
  rcases hout h hf hb a with ⟨h₁, h₂⟩ | ⟨h₁, h₂⟩ <;>
    rcases hout h' hf' hb' a with ⟨h₃, h₄⟩ | ⟨h₃, h₄⟩
  · rw [h₂, h₄]
  · omega
  · omega
  · exact hs.outcome h₂ h₄

/-- **Atomic sections do not depend on the schedule** where they are steady: each is
entered at most once, and two runs of a launch that are through have the same special
values to print, however their threads were interleaved. -/
theorem sections_scheduleFree (L : Launch V) (h : L.Steady) : L.ScheduleFree := by
  refine ⟨fun g hg hb a => entries_le hg hb a, ?_⟩
  intro g g' hg hg' hf hf' hb hb'
  unfold hashing
  rw [h.specialValues hg hg' hf hf' hb hb']

/-- A section that reads, of the outer variables, only ones the program never
writes is steady; so is one that reads its own variables only. -/
theorem steady_of_unwritten (h : ∀ a, ∀ x ∈ (L.program.sections a).body.reads,
    x ∉ (L.program.sections a).own → x ∉ L.program.main.assigns ∧ x ∉ L.program.main.declares) :
    L.Steady := by
  intro a u u' k k' hu hu' _ _ x hx hown
  have hwrite : WritesIn {x | x ∈ L.program.main.assigns ∨ x ∈ L.program.main.declares}
      L.solo.left := by
    intro s hs
    obtain rfl := List.mem_singleton.mp hs
    exact ⟨fun x hx => Or.inl hx, fun x hx => Or.inr hx⟩
  obtain ⟨hassign, hdeclare⟩ := h a x hx hown
  have hout : x ∈ {x | x ∈ L.program.main.assigns ∨ x ∈ L.program.main.declares}ᶜ :=
    fun hw => hw.elim hassign hdeclare
  exact ((hu.frame hwrite).2 x hout).trans ((hu'.frame hwrite).2 x hout).symm

/-! ## An array read in a loop -/

/-- A schedule: the threads that are to step, one after another. -/
def runSchedule (L : Launch V) (ts : List ℕ) (g : State V) : State V :=
  ts.foldl (fun g t => (L.stepThread g t).getD g) g

theorem reaches_runSchedule {ts : List ℕ} (h : ∀ t ∈ ts, t < L.size) (g : State V) :
    L.system.Reaches g (L.runSchedule ts g) := by
  unfold runSchedule
  induction ts generalizing g with
  | nil => exact .refl
  | cons t ts ih =>
    have hrest := ih (fun s hs => h s (List.mem_cons_of_mem _ hs)) ((L.stepThread g t).getD g)
    cases hstep : L.stepThread g t with
    | none =>
      rw [hstep] at hrest
      rw [List.foldl_cons, hstep]
      exact hrest
    | some g' =>
      have hfirst : L.system.Reaches g g' := .single ⟨t, h t List.mem_cons_self, hstep⟩
      rw [hstep] at hrest
      rw [List.foldl_cons, hstep]
      exact hfirst.trans hrest

/-- A schedule evaluates a test no more often than it is long. -/
theorem evals_runSchedule (ts : List ℕ) (g : State V) (a : ExpressionAtomicAccess) :
    (L.runSchedule ts g).evals a ≤ g.evals a + ts.length := by
  unfold runSchedule
  induction ts generalizing g with
  | nil => exact Nat.le_refl _
  | cons t ts ih =>
    have hrest := ih ((L.stepThread g t).getD g)
    rw [List.foldl_cons, List.length_cons]
    cases hstep : L.stepThread g t with
    | none =>
      rw [hstep] at hrest
      show _ ≤ _
      simp only [Option.getD_none] at hrest ⊢
      omega
    | some g' =>
      rw [hstep] at hrest
      have hone := (evals_step (a := a) hstep).2
      simp only [Option.getD_some] at hrest ⊢
      omega

end Launch

/-- The variables of the array loop: its counter, the array, and the
section's own. -/
inductive ArrayLoopVar
  | i_0 | l_2 | l_3
deriving DecidableEq

open ArrayLoopVar in
/-- `for (i_0 = 0; i_0 < 2; i_0++) if (atomic_inc(&l_atomic_input[0]) == 1)
{ int l_3 = 5; l_3 = e; }` after `int l_2[2] = {7, 9}`. -/
def arrayLoop (e : Expr ArrayLoopVar) : Launch ArrayLoopVar where
  program := {
    blocksNo := 1
    main := .block [⟨l_2, fun i => if i = 0 then 7 else 9⟩, ⟨i_0, fun _ => 0⟩]
      (.seq (.assign i_0 (.const 0) (.const 0))
        (.loop (.op (fun a b => if a < b then 1 else 0) (.get i_0 (.const 0)) (.const 2))
          (.assign i_0 (.const 0) (.op (· + ·) (.get i_0 (.const 0)) (.const 1)))
          (.mark ⟨0, .kLocal⟩)))
    sections _ :=
      ⟨1, [⟨⟨l_3, fun _ => 5⟩, 1, false⟩], .assign l_3 (.const 0) e⟩
    writesOwn _ _ hx := hx
    scopedMain _ x hx := by
      obtain rfl := List.mem_singleton.mp hx
      decide
    scopedBody _ _ _ hx _ := hx }
  size := 2
  start _ _ := 0

theorem arrayLoop_own_scheduleFree :
    (arrayLoop (.op (· + ·) (.get .l_3 (.const 0)) (.const 1))).ScheduleFree := by
  refine Launch.sections_scheduleFree _ (Launch.steady_of_unwritten ?_)
  intro a x hx hown
  exact absurd hx hown

open ArrayLoopVar in
/-- **A section that reads the element of the loop** sums to what the
iteration that wins makes of it. -/
theorem not_forall_scheduleFree :
    ¬ ∀ (V : Type) [DecidableEq V] (L : Launch V), L.ScheduleFree := by
  intro hall
  let L := arrayLoop (.get l_2 (.get i_0 (.const 0)))
  have hrun : ∀ ts, (∀ t ∈ ts, t < 2) → ts.length < 40 →
      L.system.Reachable (L.runSchedule ts L.initial) ∧ (L.runSchedule ts L.initial).Bounded := by
    intro ts hts hlen
    refine ⟨(System.Reachable.init rfl).reaches (Launch.reaches_runSchedule hts _), fun a => ?_⟩
    have hle : (L.runSchedule ts L.initial).evals a ≤ 0 + ts.length :=
      Launch.evals_runSchedule ts L.initial a
    omega
  -- thread 0 passes its first test and wins at its second, in iteration 1
  let ts := List.replicate 16 0 ++ List.replicate 16 1
  -- thread 1 wins at its first test, in iteration 0
  let ts' := List.replicate 5 0 ++ List.replicate 17 1 ++ List.replicate 16 0
  obtain ⟨hr, hb⟩ := hrun ts (by decide) (by decide)
  obtain ⟨hr', hb'⟩ := hrun ts' (by decide) (by decide)
  have hf : L.Finished (L.runSchedule ts L.initial) := by decide +kernel
  have hf' : L.Finished (L.runSchedule ts' L.initial) := by decide +kernel
  have heq := (hall ArrayLoopVar L).2 _ _ hr hr' hf hf' hb hb'
  have h9 : L.hashing (L.runSchedule ts L.initial) = [0, 9] := by decide +kernel
  have h7 : L.hashing (L.runSchedule ts' L.initial) = [0, 7] := by decide +kernel
  rw [h9, h7] at heq
  exact absurd heq (by decide)

end Atomic

end CLSmith
