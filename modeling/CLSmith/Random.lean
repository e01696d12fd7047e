import Mathlib.Data.List.Basic
import Mathlib.Algebra.BigOperators.Group.List.Basic
import Mathlib.Algebra.GroupWithZero.Nat
import Mathlib.Tactic.Push
/-!
# Random draws

The generator's random numbers, as the code consumes them: `genrand` hands
out raw numbers, `rnd_upto` reduces one modulo its bound and draws again
while its filter rejects the result, `rnd_flipcoin` compares one modulo
`100`. A run is given the raw numbers it will see; one that asks for more
has not finished. `DistributionTable` and the `VectorFilter` over one turn
a number into a key.
-/

namespace CLSmith

/-- The raw numbers `genrand` returns, in order. -/
abbrev Tape := List ℕ

/-- A computation that draws. It fails where an `assert` of the source
does, and where the tape ends before it returns. -/
abbrev Gen (α : Type) := StateT Tape Option α

/-- `rnd_upto(n, f)` of `DefaultRndNumGenerator`. -/
def rndUpto (n : ℕ) (f : ℕ → Bool) : Gen ℕ
  | [] => none
  | x :: xs => if f (x % n) then rndUpto n f xs else some (x % n, xs)

/-- `rnd_flipcoin(p)`: true `p` times in a hundred. -/
def rndFlipcoin (p : ℕ) : Gen Bool
  | [] => none
  | x :: xs => some (decide (x % 100 < p), xs)

/-- What a fallible lookup returns, in a drawing computation. -/
def Gen.ofOption {α : Type} (o : Option α) : Gen α := fun t => o.map fun a => (a, t)

section Bind

variable {α β : Type} {x : Gen α} {f : α → Gen β} {t t' : Tape} {b : β}

/-- **The bind rule**: a sequence succeeds exactly when both parts do, the
second on what the first left of the tape. -/
theorem Gen.bind_eq_some : (x >>= f) t = some (b, t') ↔
    ∃ a t₁, x t = some (a, t₁) ∧ f a t₁ = some (b, t') := by
  change (x t).bind (fun p => f p.1 p.2) = _ ↔ _
  rw [Option.bind_eq_some_iff]
  exact ⟨fun ⟨p, h, h'⟩ => ⟨p.1, p.2, h, h'⟩, fun ⟨a, t₁, h, h'⟩ => ⟨(a, t₁), h, h'⟩⟩

/-- Sequences whose second parts do the same on what the first leaves. -/
theorem Gen.bind_congr {g : α → Gen β} (h : ∀ a t₁, x t = some (a, t₁) → f a t₁ = g a t₁) :
    (x >>= f) t = (x >>= g) t := by
  change (x t).bind (fun p => f p.1 p.2) = (x t).bind fun p => g p.1 p.2
  cases hx : x t with
  | none => rfl
  | some p => exact h p.1 p.2 hx

@[simp] theorem Gen.pure_apply {a : α} : (pure a : Gen α) t = some (a, t) := rfl

theorem Gen.ofOption_eq_some {o : Option α} {a : α} :
    Gen.ofOption o t = some (a, t') ↔ o = some a ∧ t = t' := by
  cases o <;> simp [Gen.ofOption]

end Bind

section Sim

variable {α α' β β' : Type} {R : α → β → Prop} {S : α' → β' → Prop} {x : Gen α} {y : Gen β}

/-- **Two computations draw in step**: they fail together, and where they
return they have drawn the same numbers and return related values. -/
def Gen.Sim (R : α → β → Prop) (x : Gen α) (y : Gen β) : Prop :=
  ∀ t, Option.Rel (fun a b => R a.1 b.1 ∧ a.2 = b.2) (x t) (y t)

theorem Gen.Sim.pure {a : α} {b : β} (h : R a b) : Gen.Sim R (pure a) (pure b) :=
  fun _ => .some ⟨h, rfl⟩

theorem Gen.Sim.refl (x : Gen α) : Gen.Sim Eq x x := by
  intro t
  cases x t with
  | none => exact .none
  | some a => exact .some ⟨rfl, rfl⟩

theorem Gen.Sim.bind {f : α → Gen α'} {g : β → Gen β'} (h : Gen.Sim R x y)
    (hfg : ∀ a b, R a b → Gen.Sim S (f a) (g b)) : Gen.Sim S (x >>= f) (y >>= g) := by
  intro t
  change Option.Rel _ ((x t).bind fun p => f p.1 p.2) ((y t).bind fun p => g p.1 p.2)
  have ht := h t
  generalize x t = ox at ht ⊢
  generalize y t = oy at ht ⊢
  cases ht with
  | none => exact .none
  | @some a b hab =>
    obtain ⟨hR, htape⟩ := hab
    have hnext := hfg _ _ hR a.2
    simpa only [Option.bind_some, htape] using hnext

/-- A step of the first alone that draws nothing. -/
theorem Gen.Sim.ofOption_bind {o : Option α} {a : α} {f : α → Gen α'} {z : Gen β'} (ho : o = some a)
    (h : Gen.Sim S (f a) z) : Gen.Sim S (Gen.ofOption o >>= f) z := by
  subst ho
  exact h

/-- What holds of every result of the second may be used of it. -/
theorem Gen.Sim.and_right {Q : β → Prop} (h : Gen.Sim R x y)
    (hQ : ∀ t b t', y t = some (b, t') → Q b) : Gen.Sim (fun a b => R a b ∧ Q b) x y := by
  intro t
  have ht := h t
  have hy := hQ t
  generalize x t = ox at ht ⊢
  generalize y t = oy at ht hy ⊢
  cases ht with
  | none => exact .none
  | @some a b hab => exact .some ⟨⟨hab.1, hy _ _ rfl⟩, hab.2⟩

end Sim

section Completes

variable {α β : Type} {x : Gen α} {f : α → Gen β}

/-- **Only numbers can be missing**: on a longer tape the computation does
the same, and whatever it has drawn so far, there are numbers with which it
returns. No assertion of it fails, and no loop in it goes on for ever but by
drawing numbers its filter rejects. -/
structure Gen.Completes (x : Gen α) : Prop where
  mono : ∀ {t a t'}, x t = some (a, t') → ∀ u, x (t ++ u) = some (a, t' ++ u)
  extend : ∀ t, ∃ u a t', x (t ++ u) = some (a, t')

theorem Gen.Completes.pure (a : α) : Gen.Completes (pure a : Gen α) where
  mono := by
    intro t b t' h u
    cases h
    rfl
  extend t := ⟨[], a, t ++ [], rfl⟩

theorem Gen.Completes.bind (hx : Gen.Completes x)
    (hf : ∀ t a t', x t = some (a, t') → Gen.Completes (f a)) : Gen.Completes (x >>= f) where
  mono := by
    intro t b t' h u
    obtain ⟨a, t₁, ha, hb⟩ := Gen.bind_eq_some.mp h
    exact Gen.bind_eq_some.mpr ⟨a, t₁ ++ u, hx.mono ha u, (hf t a t₁ ha).mono hb u⟩
  extend := by
    intro t
    obtain ⟨u, a, t₁, ha⟩ := hx.extend t
    obtain ⟨u', b, t', hb⟩ := (hf _ a t₁ ha).extend t₁
    refine ⟨u ++ u', b, t', Gen.bind_eq_some.mpr ⟨a, t₁ ++ u', ?_, hb⟩⟩
    rw [← List.append_assoc]
    exact hx.mono ha u'

theorem Gen.Completes.ofOption {o : Option α} {a : α} (h : o = some a) :
    Gen.Completes (Gen.ofOption o) := by
  subst h
  exact .pure a

theorem Gen.Completes.rndFlipcoin (p : ℕ) : Gen.Completes (rndFlipcoin p) where
  mono := by
    intro t b t' h u
    cases t with
    | nil => cases h
    | cons x xs =>
      cases h
      rfl
  extend t := by
    cases t with
    | nil => exact ⟨[0], _, _, rfl⟩
    | cons x xs => exact ⟨[], _, _, rfl⟩

/-- A draw needs a number its filter accepts. -/
theorem Gen.Completes.rndUpto {n : ℕ} {f : ℕ → Bool} {v : ℕ} (hv : v < n) (hf : f v = false) :
    Gen.Completes (rndUpto n f) where
  mono := by
    intro t a t' h u
    induction t with
    | nil => cases h
    | cons x xs ih =>
      rw [CLSmith.rndUpto] at h
      rw [List.cons_append, CLSmith.rndUpto]
      split at h
      · rename_i hx
        rw [if_pos hx]
        exact ih h
      · rename_i hx
        rw [if_neg hx]
        cases h
        rfl
  extend := by
    intro t
    refine ⟨[v], ?_⟩
    induction t with
    | nil =>
      have hmod : v % n = v := Nat.mod_eq_of_lt hv
      exact ⟨v, [], by rw [List.nil_append, CLSmith.rndUpto, hmod, if_neg (by simp [hf])]⟩
    | cons x xs ih =>
      rw [List.cons_append, CLSmith.rndUpto]
      split
      · exact ih
      · exact ⟨_, _, rfl⟩

end Completes

/-- A number `rnd_upto` returns passes its filter. -/
theorem rndUpto_filter {n : ℕ} {f : ℕ → Bool} {t t' : Tape} {v : ℕ}
    (h : rndUpto n f t = some (v, t')) : f v = false := by
  induction t with
  | nil => cases h
  | cons x xs ih =>
    rw [rndUpto] at h
    split at h
    · exact ih h
    · next hf =>
      cases h
      simpa using hf

/-- A number `rnd_upto` returns is below its bound. -/
theorem rndUpto_lt {n : ℕ} {f : ℕ → Bool} {t t' : Tape} {v : ℕ} (hn : 0 < n)
    (h : rndUpto n f t = some (v, t')) : v < n := by
  induction t with
  | nil => cases h
  | cons x xs ih =>
    rw [rndUpto] at h
    split at h
    · exact ih h
    · cases h
      exact Nat.mod_lt x hn

/-- A coin is one number of the tape. -/
theorem rndFlipcoin_total (p : ℕ) {t : Tape} (h : 0 < t.length) :
    ∃ b, rndFlipcoin p t = some (b, t.drop 1) := by
  cases t with
  | nil => exact absurd h (Nat.lt_irrefl 0)
  | cons x xs => exact ⟨decide (x % 100 < p), rfl⟩

/-- **`DistributionTable`**: keys with their probabilities, in the order
they were added. -/
structure DistributionTable where
  entries : List (ℕ × ℕ) := []

namespace DistributionTable

def addEntry (d : DistributionTable) (key prob : ℕ) : DistributionTable :=
  ⟨d.entries ++ [(key, prob)]⟩

/-- `get_max`: the sum of the probabilities. -/
def getMax (d : DistributionTable) : ℕ := (d.entries.map Prod.snd).sum

/-- `key_to_prob`: zero for a key that is not there. -/
def keyToProb (d : DistributionTable) (key : ℕ) : ℕ :=
  match d.entries.find? fun e => e.1 = key with
  | some e => e.2
  | none => 0

/-- The loop of `rnd_num_to_key`; past the last entry it asserts. -/
def toKey : List (ℕ × ℕ) → ℕ → Option ℕ
  | [], _ => none
  | (key, prob) :: es, rnd => if rnd < prob then some key else toKey es (rnd - prob)

def rndNumToKey (d : DistributionTable) (rnd : ℕ) : Option ℕ := toKey d.entries rnd

/-- A key the table returns is one of its keys of positive probability. -/
theorem toKey_mem {es : List (ℕ × ℕ)} {rnd key : ℕ} (h : toKey es rnd = some key) :
    ∃ prob, 0 < prob ∧ (key, prob) ∈ es := by
  induction es generalizing rnd with
  | nil => cases h
  | cons e es ih =>
    obtain ⟨k, p⟩ := e
    rw [toKey] at h
    split at h
    · next hlt =>
      cases h
      exact ⟨p, by omega, by simp⟩
    · obtain ⟨q, hq, hmem⟩ := ih h
      exact ⟨q, hq, List.mem_cons_of_mem _ hmem⟩

/-- Below the sum of the probabilities there is a key. -/
theorem toKey_total {es : List (ℕ × ℕ)} {rnd : ℕ} (h : rnd < (es.map Prod.snd).sum) :
    ∃ key, toKey es rnd = some key := by
  induction es generalizing rnd with
  | nil => exact absurd h (Nat.not_lt_zero _)
  | cons e es ih =>
    obtain ⟨k, p⟩ := e
    rw [toKey]
    by_cases hlt : rnd < p
    · exact ⟨k, if_pos hlt⟩
    · rw [List.map_cons, List.sum_cons] at h
      rw [if_neg hlt]
      exact ih (by omega)

/-- **Every key of positive probability is some number's.** -/
theorem toKey_surj {es : List (ℕ × ℕ)} {key prob : ℕ} (h : (key, prob) ∈ es) (hpos : 0 < prob) :
    ∃ rnd, rnd < (es.map Prod.snd).sum ∧ toKey es rnd = some key := by
  induction es with
  | nil => exact absurd h List.not_mem_nil
  | cons e es ih =>
    rw [List.map_cons, List.sum_cons]
    rcases List.mem_cons.mp h with rfl | h
    · refine ⟨0, ?_, ?_⟩
      · change 0 < prob + _
        omega
      · rw [toKey, if_pos hpos]
    · obtain ⟨rnd, hlt, hkey⟩ := ih h
      obtain ⟨k, p⟩ := e
      refine ⟨p + rnd, ?_, ?_⟩
      · change p + rnd < p + _
        omega
      · rw [toKey, if_neg (by omega), Nat.add_sub_cancel_left]
        exact hkey

/-- A key that does not have all the probability leaves some to another. -/
theorem exists_other {d : DistributionTable} {key : ℕ} (hnd : (d.entries.map Prod.fst).Nodup)
    (h : d.keyToProb key ≠ d.getMax) : ∃ e ∈ d.entries, e.1 ≠ key ∧ 0 < e.2 := by
  unfold keyToProb getMax at h
  by_contra hnone
  push Not at hnone
  refine h ?_
  clear h
  generalize d.entries = es at hnd hnone ⊢
  induction es with
  | nil => rfl
  | cons e es ih =>
    obtain ⟨he, hes⟩ := List.nodup_cons.mp hnd
    rw [List.find?_cons, List.map_cons, List.sum_cons]
    have hrest := fun e' he' => hnone e' (List.mem_cons_of_mem e he')
    by_cases hkey : e.1 = key
    · -- the others have another key, so no probability
      have hzero : (es.map Prod.snd).sum = 0 := by
        refine List.sum_eq_zero fun p hp => ?_
        obtain ⟨e', he', rfl⟩ := List.mem_map.mp hp
        have hne : e'.1 ≠ key := fun heq =>
          he (List.mem_map.mpr ⟨e', he', heq.trans hkey.symm⟩)
        have := hrest e' he' hne
        omega
      simp [hkey, hzero]
    · have hp := hnone e List.mem_cons_self hkey
      simp only [hkey, decide_false]
      rw [ih hes hrest]
      omega

end DistributionTable

/-- **`VectorFilter`** over a table, with `FILTER_OUT`: it rejects the
numbers whose key is in `vs`. -/
structure VectorFilter where
  ptable : DistributionTable
  vs : List ℕ := []

namespace VectorFilter

def add (f : VectorFilter) (item : ℕ) : VectorFilter :=
  if item ∈ f.vs then f else { f with vs := f.vs ++ [item] }

def getMaxProb (f : VectorFilter) : ℕ := f.ptable.getMax

def lookup (f : VectorFilter) (v : ℕ) : Option ℕ := f.ptable.rndNumToKey v

def filter (f : VectorFilter) (v : ℕ) : Bool :=
  match f.lookup v with
  | some key => decide (key ∈ f.vs)
  | none => false

end VectorFilter

end CLSmith
