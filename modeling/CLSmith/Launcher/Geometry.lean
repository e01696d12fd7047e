import CLSmith.Launcher.Header
import Mathlib.Algebra.Group.Nat.Units
import Mathlib.Algebra.Order.BigOperators.GroupWithZero.List
/-!
# The geometry and its counters

What a run of `InitRuntimeParameters` leaves: the numbers it drew, the
divisors it picked, and what the getters make of its counters.
-/

namespace CLSmith

namespace Launcher

/-! ## Divisors and quotients -/

/-- **Every entry of `get_divisors` divides**, and is not zero. -/
theorem dvd_of_mem_getDivisors {val d : ℕ} (h : d ∈ getDivisors val) : d ∣ val := by
  have key : ∀ rounds i, ∀ d ∈ divisorsFrom val rounds i, d ∣ val := by
    intro rounds
    induction rounds with
    | zero => exact fun i d hd => nomatch hd
    | succ rounds ih =>
      intro i d hd
      unfold divisorsFrom at hd
      split_ifs at hd with hlt hmod heq
      · have hi : i ∣ val := Nat.dvd_of_mod_eq_zero hmod
        rcases List.mem_append.mp hd with hd | hd
        · simp only [List.mem_cons, List.not_mem_nil, or_false] at hd
          rcases hd with rfl | rfl
          · exact hi
          · exact Nat.div_dvd_of_dvd hi
        · exact ih (i + 1) d hd
      · exact ih (i + 1) d (by simpa using hd)
      · rw [List.mem_singleton.mp hd, ← heq]
        exact Nat.dvd_mul_right i i
      · cases hd
  rcases List.mem_cons.mp h with rfl | h
  · exact Nat.one_dvd val
  · rcases List.mem_cons.mp h with rfl | h
    · exact Nat.dvd_refl d
    · exact key _ _ d h

/-- The quotients of two lists of dimensions. -/
def quotients (g l : List ℕ) : List ℕ := List.zipWith (· / ·) g l

theorem countGroups_eq (g l : List ℕ) (n : ℕ) : countGroups g l n = n * (quotients g l).prod := by
  induction g generalizing l n with
  | nil => simp [countGroups, quotients]
  | cons a g ih =>
    cases l with
    | nil => simp [countGroups, quotients]
    | cons b l =>
      rw [countGroups, ih]
      simp [quotients, Nat.mul_assoc]

section Divides

variable {g l : List ℕ}

/-- Dimension by dimension, a number of items is so many groups of them. -/
theorem prod_quotients (h : List.Forall₂ (· ∣ ·) l g) :
    (quotients g l).prod * l.prod = g.prod := by
  induction h with
  | nil => rfl
  | @cons b a l g hba _ ih =>
    have hcancel : a / b * b = a := Nat.div_mul_cancel hba
    calc (a / b * (quotients g l).prod) * (b * l.prod)
        = (a / b * b) * ((quotients g l).prod * l.prod) := by ring
      _ = a * g.prod := by rw [hcancel, ih]

theorem quotients_pos (h : List.Forall₂ (· ∣ ·) l g) (hg : 0 < g.prod) :
    0 < (quotients g l).prod := by
  have hprod := prod_quotients h
  rcases Nat.eq_zero_or_pos (quotients g l).prod with h0 | hpos
  · rw [h0, Nat.zero_mul] at hprod
    omega
  · exact hpos

/-- One group is all there is exactly where it is as large as the whole. -/
theorem prod_quotients_eq_one (h : List.Forall₂ (· ∣ ·) l g) (hg : 0 < g.prod) :
    (quotients g l).prod = 1 ↔ l = g := by
  induction h with
  | nil => simp [quotients]
  | @cons b a l g hba hrest ih =>
    rw [List.prod_cons] at hg
    have ha := Nat.pos_of_mul_pos_right hg
    have hg' := Nat.pos_of_mul_pos_left hg
    have hone : a / b = 1 ↔ b = a := by
      constructor
      · intro h1
        rw [← Nat.div_mul_cancel hba, h1, Nat.one_mul]
      · rintro rfl
        exact Nat.div_self ha
    rw [List.cons.injEq, ← ih hg', ← hone]
    exact mul_eq_one

end Divides

/-! ## One run -/

section Draws

variable {t t' : Tape}

theorem rndAny_eq_some {n v : ℕ} : rndAny n t = some (v, t') ↔ ∃ x, t = x :: t' ∧ v = x % n := by
  cases t with
  | nil => simp [rndAny, rndUpto]
  | cons x xs =>
    simp only [rndAny, rndUpto, Bool.false_eq_true, if_false, Option.some.injEq, Prod.mk.injEq,
      List.cons.injEq]
    constructor
    · rintro ⟨rfl, rfl⟩
      exact ⟨x, ⟨rfl, rfl⟩, rfl⟩
    · rintro ⟨y, ⟨rfl, rfl⟩, rfl⟩
      exact ⟨rfl, rfl⟩

theorem rndSome_of_pos {n : ℕ} (h : 0 < n) : rndSome n = rndAny n := if_neg h.ne'

/-- The dimensions that numbers give, behind `n` threads. -/
def dimsFrom : ℕ → List ℕ → List ℕ
  | _, [] => []
  | n, x :: xs =>
    let d := x % min maxThrPerDim (maxThreads / n) + 1
    d :: dimsFrom (n * d) xs

/-- The number picks the dimension itself out of its divisors. -/
def Whole (dim x : ℕ) : Prop := (getDivisors dim)[x % (getDivisors dim).length]? = some dim

theorem drawGlobal_spec {dims n m : ℕ} {g : List ℕ} (h0 : 0 < n) (hle : n ≤ maxThreads)
    (h : drawGlobal rndAny dims n t = some ((g, m), t')) :
    ∃ used, t = used ++ t' ∧ used.length = dims ∧ g = dimsFrom n used ∧ g.length = dims ∧
      m = n * g.prod ∧ m ≤ maxThreads ∧ (∀ d ∈ g, 0 < d ∧ d ≤ maxThrPerDim) ∧
      drawGlobal rndSome dims n t = some ((g, m), t') := by
  induction dims generalizing n g t with
  | zero =>
    simp only [drawGlobal, Gen.pure_apply, Option.some.injEq, Prod.mk.injEq] at h
    obtain ⟨⟨rfl, rfl⟩, rfl⟩ := h
    exact ⟨[], rfl, rfl, rfl, rfl, by simp, hle, (fun d hd => nomatch hd), rfl⟩
  | succ dims ih =>
    obtain ⟨r, t₁, hr, h⟩ := Gen.bind_eq_some.mp h
    obtain ⟨⟨rest, k⟩, t₂, hrest, h⟩ := Gen.bind_eq_some.mp h
    simp only [Gen.pure_apply, Option.some.injEq, Prod.mk.injEq] at h
    obtain ⟨⟨rfl, rfl⟩, rfl⟩ := h
    have hpos : 0 < min maxThrPerDim (maxThreads / n) := lt_min (by decide) (Nat.div_pos hle h0)
    have hr' := hr
    obtain ⟨x, rfl, rfl⟩ := rndAny_eq_some.mp hr
    -- the range keeps the threads so far within the limit
    have hlt := Nat.mod_lt x hpos
    have hdim : x % min maxThrPerDim (maxThreads / n) + 1 ≤ maxThrPerDim :=
      (Nat.succ_le_of_lt hlt).trans (min_le_left _ _)
    have hmul : n * (x % min maxThrPerDim (maxThreads / n) + 1) ≤ maxThreads := by
      have hdiv : x % min maxThrPerDim (maxThreads / n) + 1 ≤ maxThreads / n :=
        (Nat.succ_le_of_lt hlt).trans (min_le_right _ _)
      exact (Nat.mul_le_mul_left _ hdiv).trans (Nat.mul_div_le _ _)
    obtain ⟨used, rfl, hused, hg, hlen, hm, hmle, hall, hsome⟩ :=
      ih (Nat.mul_pos h0 (Nat.succ_pos _)) hmul hrest
    refine ⟨x :: used, rfl, by simp [hused], ?_, by simp [hlen], ?_, hmle, ?_, ?_⟩
    · rw [dimsFrom, ← hg]
    · rw [hm, List.prod_cons, Nat.mul_assoc]
    · exact List.forall_mem_cons.mpr ⟨⟨Nat.succ_pos _, hdim⟩, hall⟩
    · refine Gen.bind_eq_some.mpr ⟨_, _, ?_, Gen.bind_eq_some.mpr ⟨_, _, hsome, rfl⟩⟩
      rw [rndSome_of_pos hpos]
      exact hr'

theorem drawLocal_spec {g l : List ℕ} {n m : ℕ}
    (h : drawLocal rndAny g n t = some ((l, m), t')) :
    ∃ used, t = used ++ t' ∧ used.length = g.length ∧ List.Forall₂ (· ∣ ·) l g ∧
      m = n * l.prod ∧ (l = g ↔ List.Forall₂ Whole g used) ∧
      drawLocal rndSome g n t = some ((l, m), t') := by
  induction g generalizing n l t with
  | nil =>
    simp only [drawLocal, Gen.pure_apply, Option.some.injEq, Prod.mk.injEq] at h
    obtain ⟨⟨rfl, rfl⟩, rfl⟩ := h
    exact ⟨[], rfl, rfl, .nil, by simp, by simp, rfl⟩
  | cons dim g ih =>
    obtain ⟨r, t₁, hr, h⟩ := Gen.bind_eq_some.mp h
    obtain ⟨d, t₂, hd, h⟩ := Gen.bind_eq_some.mp h
    obtain ⟨⟨rest, k⟩, t₃, hrest, h⟩ := Gen.bind_eq_some.mp h
    simp only [Gen.pure_apply, Option.some.injEq, Prod.mk.injEq] at h
    obtain ⟨⟨rfl, rfl⟩, rfl⟩ := h
    have hr' := hr
    obtain ⟨x, rfl, rfl⟩ := rndAny_eq_some.mp hr
    obtain ⟨hget, rfl⟩ := Gen.ofOption_eq_some.mp hd
    obtain ⟨used, rfl, hused, hdiv, hm, hwhole, hsome⟩ := ih hrest
    refine ⟨x :: used, rfl, by simp [hused], .cons (dvd_of_mem_getDivisors ?_) hdiv, ?_, ?_, ?_⟩
    · exact List.mem_of_getElem? hget
    · rw [hm, List.prod_cons, Nat.mul_assoc]
    · rw [List.cons.injEq, List.forall₂_cons, hwhole, Whole, hget, Option.some.injEq]
    · refine Gen.bind_eq_some.mpr ⟨_, _, ?_, Gen.bind_eq_some.mpr
        ⟨_, _, hd, Gen.bind_eq_some.mpr ⟨_, _, hsome, rfl⟩⟩⟩
      rw [rndSome_of_pos (by simp [getDivisors])]
      exact hr'

theorem drawGroup_spec {g l : List ℕ} {rounds : ℕ}
    (h : drawGroup rndAny g rounds t = some (l, t')) :
    ∃ skipped used, t = skipped ++ used ++ t' ∧ used.length = g.length ∧
      List.Forall₂ (· ∣ ·) l g ∧ l.prod ≤ maxThreadsPerGroup ∧
      (l = g ↔ List.Forall₂ Whole g used) ∧ drawGroup rndSome g rounds t = some (l, t') := by
  induction rounds generalizing t with
  | zero => cases h
  | succ rounds ih =>
    obtain ⟨⟨l', m⟩, t₁, hl', hnext⟩ := Gen.bind_eq_some.mp h
    clear h
    obtain ⟨used, rfl, hused, hdiv, hm, hwhole, hsome⟩ := drawLocal_spec hl'
    dsimp only at hnext
    split_ifs at hnext with hlarge
    · obtain ⟨skipped, used', rfl, hrest⟩ := ih hnext
      obtain ⟨hused', hdiv', hprod, hwhole', hsome'⟩ := hrest
      refine ⟨used ++ skipped, used', by simp, hused', hdiv', hprod, hwhole', ?_⟩
      refine Gen.bind_eq_some.mpr ⟨_, _, hsome, ?_⟩
      dsimp only
      rw [if_pos hlarge]
      exact hsome'
    · simp only [Gen.pure_apply, Option.some.injEq, Prod.mk.injEq] at hnext
      obtain ⟨rfl, rfl⟩ := hnext
      refine ⟨[], used, by simp, hused, hdiv, by rw [hm] at hlarge; omega, hwhole, ?_⟩
      refine Gen.bind_eq_some.mpr ⟨_, _, hsome, ?_⟩
      dsimp only
      rw [if_neg hlarge]
      rfl

/-- **A launch of one group**: the first numbers drawn give the dimensions,
and each of the last ones picks the dimension itself. -/
def OneGroup (used : List ℕ) : Prop :=
  List.Forall₂ Whole (dimsFrom 1 (used.take noDims)) (used.drop (used.length - noDims))

/-- **The geometry is consistent**, and no draw is made from an empty range; but the
total number of threads is that of the launch in a launch of one group only, since
`get_total_threads` multiplies the number it was drawn as by the groups. -/
theorem initRuntime_spec {r : Runtime} (h : initRuntime rndAny t = some (r, t')) :
    (r.globalDim.length = noDims ∧ List.Forall₂ (· ∣ ·) r.localDim r.globalDim ∧
      r.localDim.prod ≤ maxThreadsPerGroup ∧ r.globalDim.prod ≤ maxThreads ∧
      initRuntime rndSome t = some (r, t') ∧ r.getThreadsPerGroup = r.localDim.prod ∧
      r.getGroups = (quotients r.globalDim r.localDim).prod) ∧
    ∃ used, t = used ++ t' ∧ (r.getTotalThreads = r.globalDim.prod ↔ OneGroup used) := by
  unfold initRuntime at h
  obtain ⟨⟨g, n⟩, t₁, hg, h⟩ := Gen.bind_eq_some.mp h
  obtain ⟨l, t₂, hl, h⟩ := Gen.bind_eq_some.mp h
  simp only [Gen.pure_apply, Option.some.injEq, Prod.mk.injEq] at h
  obtain ⟨rfl, rfl⟩ := h
  obtain ⟨first, ht, hfirst, hdims, hlen, hn, hle, hall, hsome⟩ :=
    drawGlobal_spec (by decide) (by decide) hg
  obtain ⟨skipped, last, rfl, hlast, hdiv, hprod, hwhole, hsome'⟩ := drawGroup_spec hl
  rw [Nat.one_mul] at hn
  have hpos : 0 < g.prod := List.prod_pos fun d hd => (hall d hd).1
  have hgroups := countGroups_eq g l 1
  rw [Nat.one_mul] at hgroups
  have hqpos := quotients_pos hdiv hpos
  refine ⟨⟨hlen, hdiv, hprod, by rw [← hn]; exact hle, ?_, ?_, hgroups⟩, ?_⟩
  · unfold initRuntime
    exact Gen.bind_eq_some.mpr ⟨_, _, hsome, Gen.bind_eq_some.mpr ⟨_, _, hsome', rfl⟩⟩
  · show n / countGroups g l 1 = l.prod
    rw [hgroups, hn, ← prod_quotients hdiv]
    exact Nat.mul_div_cancel_left _ hqpos
  · refine ⟨first ++ skipped ++ last, by rw [ht]; simp, ?_⟩
    have htake : (first ++ skipped ++ last).take noDims = first := by
      rw [List.append_assoc, ← hfirst, List.take_left]
    have hdrop : (first ++ skipped ++ last).drop ((first ++ skipped ++ last).length - noDims)
        = last := by
      rw [List.length_append, hlast, hlen, Nat.add_sub_cancel, List.drop_left]
    unfold OneGroup
    rw [htake, hdrop, ← hdims, ← hwhole, ← prod_quotients_eq_one hdiv hpos]
    -- the threads are counted once for each group
    show n * countGroups g l 1 = g.prod ↔ _
    rw [hgroups, hn]
    exact Nat.mul_eq_left hpos.ne'

/-- Two work items, of which each is a group: the total is four. -/
theorem not_getTotalThreads : ∃ r t', initRuntime rndAny [1, 0, 0, 0, 0, 0] = some (r, t') ∧
    r.getTotalThreads = 4 ∧ r.globalDim.prod = 2 :=
  ⟨_, _, rfl, rfl, rfl⟩

theorem initRuntime_spec_two :
    ∃ r t', initRuntime rndAny [1, 0, 0, 1, 0, 0] = some (r, t') ∧ r.localDim.prod ≤ 256 :=
  ⟨_, _, rfl, (initRuntime_spec (t := [1, 0, 0, 1, 0, 0]) rfl).1.2.2.1⟩

end Draws

end Launcher

end CLSmith
