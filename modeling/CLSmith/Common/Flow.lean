import Mathlib.Data.Set.Lattice
import Mathlib.Logic.Function.Iterate
/-!
# Flows of copies

Programs that copy what variables hold, or put something new in them, by where
what a variable holds in the end comes from. A program that is run again and
again, and whose results are collected, is one graph: in `n` rounds arrives what
is `n` flows away.
-/

namespace CLSmith

namespace Common

/-- **A source**: what a variable held before, or something new. An assignment of one
variable to another is the first, that of an address the second. -/
inductive Source (K A : Type)
  | old (k : K)
  | new (a : A)

/-- **A flow**: the sources of what the variables hold in the end. It forgets in what
order and how often anything was assigned. -/
abbrev Flow (K A : Type) := K → Source K A → Prop

namespace Source

variable {K A : Type}

/-- What a source holds. -/
def held (X : K → Set A) : Source K A → Set A
  | old k => X k
  | new a => {a}

end Source

namespace Flow

variable {K A : Type} {R R' : Flow K A} {X Y : K → Set A} {k : K} {a : A} {n : ℕ}

/-- What the variables hold in the end. -/
def apply (R : Flow K A) (X : K → Set A) (k : K) : Set A := {a | ∃ s, R k s ∧ a ∈ s.held X}

/-- No end. -/
def none : Flow K A := fun _ _ => False

/-- Nothing is done. -/
def skip : Flow K A := fun k s => s = .old k

/-- One program after another. -/
def comp (R R' : Flow K A) : Flow K A := fun k s => ∃ m, R' k m ∧
  match m with
  | .old j => R j s
  | .new a => s = .new a

/-- One program or another. -/
def alt (R R' : Flow K A) : Flow K A := fun k s => R k s ∨ R' k s

/-- One variable is assigned a source. -/
def assign (k : K) (s : Source K A) : Flow K A :=
  fun j s' => j = k ∧ s' = s ∨ j ≠ k ∧ s' = .old j

theorem apply_none : (none : Flow K A).apply X k = ∅ := by
  ext a
  exact ⟨fun ⟨_, h, _⟩ => h, fun h => h.elim⟩

theorem apply_skip : (skip : Flow K A).apply X = X := by
  ext k a
  constructor
  · rintro ⟨s, rfl, ha⟩
    exact ha
  · exact fun ha => ⟨.old k, rfl, ha⟩

theorem apply_comp : (R.comp R').apply X = R'.apply (R.apply X) := by
  ext k a
  constructor
  · rintro ⟨s, ⟨m, hm, hs⟩, ha⟩
    cases m with
    | old j => exact ⟨.old j, hm, s, hs, ha⟩
    | new b =>
      obtain rfl : s = .new b := hs
      exact ⟨.new b, hm, ha⟩
  · rintro ⟨m, hm, ha⟩
    cases m with
    | old j =>
      obtain ⟨s, hs, ha⟩ := ha
      exact ⟨s, ⟨.old j, hm, hs⟩, ha⟩
    | new b => exact ⟨.new b, ⟨.new b, hm, rfl⟩, ha⟩

theorem apply_alt : (R.alt R').apply X k = R.apply X k ∪ R'.apply X k := by
  ext a
  constructor
  · rintro ⟨s, hs | hs, ha⟩
    · exact .inl ⟨s, hs, ha⟩
    · exact .inr ⟨s, hs, ha⟩
  · rintro (⟨s, hs, ha⟩ | ⟨s, hs, ha⟩)
    · exact ⟨s, .inl hs, ha⟩
    · exact ⟨s, .inr hs, ha⟩

theorem apply_assign [DecidableEq K] (s : Source K A) :
    (assign k s).apply X = Function.update X k (s.held X) := by
  ext j a
  by_cases hj : j = k
  · subst hj
    rw [Function.update_self]
    constructor
    · rintro ⟨s', ⟨-, rfl⟩ | ⟨hne, -⟩, ha⟩
      · exact ha
      · exact absurd rfl hne
    · exact fun ha => ⟨s, .inl ⟨rfl, rfl⟩, ha⟩
  · rw [Function.update_of_ne hj]
    constructor
    · rintro ⟨s', ⟨heq, -⟩ | ⟨-, rfl⟩, ha⟩
      · exact absurd heq hj
      · exact ha
    · exact fun ha => ⟨.old j, .inr ⟨hj, rfl⟩, ha⟩

/-! ## Rounds -/

/-- **What arrives at a variable** along so many flows at most: what it held to begin
with, what is new in the last flow, or what had arrived at its source one flow
earlier. -/
inductive Arrives (R : Flow K A) (X : K → Set A) : ℕ → K → A → Prop
  | here {n : ℕ} {k : K} {a : A} (h : a ∈ X k) : Arrives R X n k a
  | new {n : ℕ} {k : K} {a : A} (h : R k (.new a)) : Arrives R X (n + 1) k a
  | old {n : ℕ} {k j : K} {a : A} (h : R k (.old j)) (ha : Arrives R X n j a) :
    Arrives R X (n + 1) k a

/-- One round: what is held, and what flows. -/
def collect (R : Flow K A) (X : K → Set A) (k : K) : Set A := X k ∪ R.apply X k

theorem Arrives.succ (h : Arrives R X n k a) : Arrives R X (n + 1) k a := by
  induction h with
  | here h => exact .here h
  | new h => exact .new h
  | old h _ ih => exact .old h ih

theorem arrives_zero : Arrives R X 0 k a ↔ a ∈ X k :=
  ⟨fun h => by cases h; assumption, .here⟩

/-- What arrives along one flow more. -/
theorem arrives_succ : Arrives R X (n + 1) k a ↔
    a ∈ R.collect (fun k => {a | Arrives R X n k a}) k := by
  constructor
  · intro h
    cases h with
    | here h => exact .inl (.here h)
    | new h => exact .inr ⟨.new a, h, rfl⟩
    | old h ha => exact .inr ⟨.old _, h, ha⟩
  · rintro (h | ⟨s, hs, ha⟩)
    · exact h.succ
    · cases s with
      | old j => exact .old hs ha
      | new b =>
        obtain rfl : a = b := ha
        exact .new hs

/-- **In `n` rounds arrives what is `n` flows away.** -/
theorem iterate_collect (n : ℕ) : R.collect^[n] X = fun k => {a | Arrives R X n k a} := by
  induction n with
  | zero =>
    funext k
    ext a
    exact arrives_zero.symm
  | succ n ih =>
    rw [Function.iterate_succ_apply', ih]
    funext k
    ext a
    exact arrives_succ.symm

end Flow

end Common

end CLSmith
