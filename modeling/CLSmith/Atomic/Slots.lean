import CLSmith.Atomic.Sections
import CLSmith.Launcher.Arguments
import CLSmith.Launcher.Geometry
import Mathlib.Algebra.BigOperators.Fin
import Mathlib.Algebra.Order.BigOperators.Ring.Finset
/-!
# Threads, groups and slots

`CLSmith.h` numbers the threads of a launch, the threads of a group and the
groups, and an atomic access of a group takes the place of its section in
the group's part of the global buffers. The numbers are 32 bits wide.
-/

namespace CLSmith

namespace Atomic

open Launcher

/-- **A launch** in three dimensions. The sizes of a group divide those of the launch,
as the host asks the driver for nothing else. -/
structure NDRange where
  globalSize : Fin 3 → ℕ
  localSize : Fin 3 → ℕ
  dvd : ∀ i, localSize i ∣ globalSize i

/-- `(id(2) * size(1) + id(1)) * size(0) + id(0)` as a `uint32_t`. The wider
`size_t` it is computed in is cut to it. -/
def linearId (size id : Fin 3 → ℕ) : ℕ := ((id 2 * size 1 + id 1) * size 0 + id 0) % 2 ^ 32

namespace NDRange

variable (r : NDRange)

/-- `get_num_groups`. -/
def numGroups : Fin 3 → ℕ := fun i => r.globalSize i / r.localSize i

/-- `get_group_id`, of the thread with the global id `t`. -/
def groupId (t : Fin 3 → ℕ) : Fin 3 → ℕ := fun i => t i / r.localSize i

/-- `get_local_id`. -/
def localId (t : Fin 3 → ℕ) : Fin 3 → ℕ := fun i => t i % r.localSize i

def getLinearGroupId (t : Fin 3 → ℕ) : ℕ := linearId r.numGroups (r.groupId t)

def getLinearGlobalId (t : Fin 3 → ℕ) : ℕ := linearId r.globalSize t

def getLinearLocalId (t : Fin 3 → ℕ) : ℕ := linearId r.localSize (r.localId t)

/-- The threads, by their global ids. -/
def threads : Set (Fin 3 → ℕ) := {t | ∀ i, t i < r.globalSize i}

/-- The groups. -/
def groups : Set (Fin 3 → ℕ) := {k | ∀ i, k i < r.numGroups i}

/-- The threads of a group. -/
def threadsOf (k : Fin 3 → ℕ) : Set (Fin 3 → ℕ) := {t | t ∈ r.threads ∧ r.groupId t = k}

end NDRange

/-! ## Linear ids -/

/-- Digits under their radices number an initial segment. -/
theorem radix_bijOn (n : Fin 3 → ℕ) :
    Set.BijOn (fun x : Fin 3 → ℕ => (x 2 * n 1 + x 1) * n 0 + x 0) {x | ∀ i, x i < n i}
      (Set.Iio (∏ i, n i)) := by
  have hvalue : ∀ f : (i : Fin 3) → Fin (n i),
      (finPiFinEquiv f : ℕ) = ((f 2 : ℕ) * n 1 + f 1) * n 0 + f 0 := by
    intro f
    have hsum : (finPiFinEquiv f : ℕ) = (f 0 : ℕ) + f 1 * n 0 + f 2 * (n 0 * n 1) := by
      rw [finPiFinEquiv_apply, Fin.sum_univ_three]
      simp [Fin.prod_univ_succ]
    rw [hsum]
    ring
  refine ⟨?_, ?_, ?_⟩
  · intro x hx
    have h := (finPiFinEquiv fun i => (⟨x i, hx i⟩ : Fin (n i))).isLt
    rwa [hvalue] at h
  · intro x hx y hy hxy
    have heq : (finPiFinEquiv fun i => (⟨x i, hx i⟩ : Fin (n i))) =
        finPiFinEquiv fun i => (⟨y i, hy i⟩ : Fin (n i)) := by
      apply Fin.ext
      rw [hvalue, hvalue]
      exact hxy
    funext i
    exact congrArg Fin.val (congrFun (finPiFinEquiv.injective heq) i)
  · intro v hv
    have h := hvalue (finPiFinEquiv.symm ⟨v, hv⟩)
    rw [Equiv.apply_symm_apply] at h
    exact ⟨fun i => finPiFinEquiv.symm ⟨v, hv⟩ i, fun i => Fin.isLt _, h.symm⟩

/-- Up to `2 ^ 32` of them, cutting the number changes nothing. -/
theorem linearId_bijOn {n : Fin 3 → ℕ} (h : ∏ i, n i ≤ 2 ^ 32) :
    Set.BijOn (linearId n) {x | ∀ i, x i < n i} (Set.Iio (∏ i, n i)) := by
  have hbij := radix_bijOn n
  refine hbij.congr fun x hx => ?_
  exact (Nat.mod_eq_of_lt ((hbij.mapsTo hx).trans_le h)).symm

namespace NDRange

variable {r : NDRange} {k : Fin 3 → ℕ}

theorem groupId_mem {t : Fin 3 → ℕ} (ht : t ∈ r.threads) : r.groupId t ∈ r.groups :=
  fun i => Nat.div_lt_div_of_lt_of_dvd (r.dvd i) (ht i)

section Group

variable (hk : k ∈ r.groups)
include hk

theorem globalSize_pos (i : Fin 3) : 0 < r.globalSize i := by
  refine Nat.pos_of_ne_zero fun h0 => ?_
  have hlt := hk i
  unfold numGroups at hlt
  rw [h0, Nat.zero_div] at hlt
  exact Nat.not_lt_zero _ hlt

theorem localSize_pos (i : Fin 3) : 0 < r.localSize i :=
  Nat.pos_of_dvd_of_pos (r.dvd i) (globalSize_pos hk i)

/-- A thread of a group is told by its local id. -/
theorem localId_bijOn : Set.BijOn r.localId (r.threadsOf k) {x | ∀ i, x i < r.localSize i} := by
  refine ⟨?_, ?_, ?_⟩
  · intro t _ i
    exact Nat.mod_lt _ (localSize_pos hk i)
  · rintro t ⟨-, ht⟩ u ⟨-, hu⟩ htu
    funext i
    have hdiv : t i / r.localSize i = u i / r.localSize i := congrFun (ht.trans hu.symm) i
    have hmod : t i % r.localSize i = u i % r.localSize i := congrFun htu i
    rw [← Nat.div_add_mod (t i) (r.localSize i), hdiv, hmod, Nat.div_add_mod]
  · intro x hx
    have hdiv : ∀ i, (r.localSize i * k i + x i) / r.localSize i = k i := by
      intro i
      rw [Nat.mul_add_div (localSize_pos hk i), Nat.div_eq_of_lt (hx i), Nat.add_zero]
    refine ⟨fun i => r.localSize i * k i + x i, ⟨fun i => ?_, funext hdiv⟩, funext fun i => ?_⟩
    · calc r.localSize i * k i + x i
          < r.localSize i * (k i + 1) := by rw [Nat.mul_succ]; exact Nat.add_lt_add_left (hx i) _
        _ ≤ r.localSize i * (r.globalSize i / r.localSize i) := Nat.mul_le_mul_left _ (hk i)
        _ = r.globalSize i := Nat.mul_div_cancel' (r.dvd i)
    · exact (Nat.mul_add_mod _ _ _).trans (Nat.mod_eq_of_lt (hx i))

end Group

variable (hthreads : ∏ i, r.globalSize i ≤ 2 ^ 32)
include hthreads

theorem getLinearGlobalId_bijOn :
    Set.BijOn r.getLinearGlobalId r.threads (Set.Iio (∏ i, r.globalSize i)) :=
  linearId_bijOn hthreads

theorem prod_numGroups_le : ∏ i, r.numGroups i ≤ 2 ^ 32 :=
  (Finset.prod_le_prod (fun _ _ => Nat.zero_le _) fun _ _ => Nat.div_le_self _ _).trans hthreads

theorem linearGroupId_bijOn :
    Set.BijOn (linearId r.numGroups) r.groups (Set.Iio (∏ i, r.numGroups i)) :=
  linearId_bijOn (prod_numGroups_le hthreads)

theorem getLinearLocalId_bijOn (hk : k ∈ r.groups) :
    Set.BijOn r.getLinearLocalId (r.threadsOf k) (Set.Iio (∏ i, r.localSize i)) := by
  have hle : ∏ i, r.localSize i ≤ 2 ^ 32 :=
    (Finset.prod_le_prod (fun i _ => Nat.zero_le _) fun i _ =>
      Nat.le_of_dvd (globalSize_pos hk i) (r.dvd i)).trans hthreads
  exact (linearId_bijOn hle).comp (localId_bijOn hk)

end NDRange

/-! ## Slots -/

/-- **The index `ExpressionAtomicAccess::Output` prints**, in the group
with the linear id `group`; `N` is `get_atomic_blocks_no()`. -/
def accessIndex (N group : ℕ) (a : ExpressionAtomicAccess) : ℕ :=
  match a.mem with
  | .kGlobal => (N * group + a.constant) % 2 ^ 32
  | .kLocal => a.constant

/-- The length of `GetGlobalBuffer` and `GetSVBuffer`. -/
def globalBufferLength (r : NDRange) (N : ℕ) : ℕ :=
  countGroups (List.ofFn r.globalSize) (List.ofFn r.localSize) 1 * N % 2 ^ 32

/-- The length of `GetLocalBuffer` and `GetLocalSVBuffer`. -/
def localBufferLength (N : ℕ) : ℕ := N

/-- The buffers the launcher binds for the atomic sections. -/
def launcherBuffers (s : Input) (r : NDRange) : List Buffer :=
  ((setKernelArgs s (List.ofFn fun i => (r.globalSize i : ℤ))
    (List.ofFn fun i => (r.localSize i : ℤ))).2.map Prod.snd).filter
      fun b => b.name = .atomicInput ∨ b.name = .specialValues

section Index

variable {N g g' : ℕ} {a b : ExpressionAtomicAccess}

theorem accessIndex_global (ha : a.mem = .kGlobal) (hc : a.constant < N) {groups : ℕ}
    (hg : g < groups) (hN : N * groups < 2 ^ 31) :
    accessIndex N g a = N * g + a.constant ∧ accessIndex N g a < N * groups := by
  have hlt : N * g + a.constant < N * groups := by
    calc N * g + a.constant
        < N * (g + 1) := by rw [Nat.mul_succ]; exact Nat.add_lt_add_left hc _
      _ ≤ N * groups := Nat.mul_le_mul_left _ hg
  unfold accessIndex
  rw [ha]
  simp only
  rw [Nat.mod_eq_of_lt (by omega)]
  exact ⟨rfl, hlt⟩

/-- A place in the parts of all groups tells the group and the place in its part. -/
theorem part_inj {c c' : ℕ} (hc : c < N) (hc' : c' < N) (h : N * g + c = N * g' + c') :
    g = g' ∧ c = c' := by
  have hN : 0 < N := by omega
  have hdiv : ∀ {x y : ℕ}, y < N → (N * x + y) / N = x := by
    intro x y hy
    rw [Nat.mul_add_div hN, Nat.div_eq_of_lt hy, Nat.add_zero]
  have hg : g = g' := by rw [← hdiv (x := g) hc, h, hdiv hc']
  subst hg
  exact ⟨rfl, by omega⟩

end Index

theorem quotients_ofFn (r : NDRange) :
    (quotients (List.ofFn r.globalSize) (List.ofFn r.localSize)).prod = ∏ i, r.numGroups i := by
  simp [quotients, List.ofFn_succ, Fin.prod_univ_succ, NDRange.numGroups]

theorem globalBufferLength_eq {r : NDRange} {N : ℕ} (h : N * ∏ i, r.numGroups i < 2 ^ 31) :
    globalBufferLength r N = N * ∏ i, r.numGroups i := by
  unfold globalBufferLength
  rw [countGroups_eq, Nat.one_mul, quotients_ofFn, Nat.mul_comm, Nat.mod_eq_of_lt (by omega)]

/-- The launcher multiplies the same quotients. -/
theorem launcherBuffers_eq {s : Input} {r : NDRange} {N : ℕ} (hs : s.atomics = true)
    (hN : s.atomicCounterNo = N) :
    launcherBuffers s r = [⟨.atomicInput, .uint, (N * ∏ i, r.numGroups i : ℕ)⟩,
      ⟨.specialValues, .uint, (N * ∏ i, r.numGroups i : ℕ)⟩] := by
  have hprod : (List.zipWith (· / ·) (List.ofFn fun i => (r.globalSize i : ℤ))
      (List.ofFn fun i => (r.localSize i : ℤ))).prod = (∏ i, r.numGroups i : ℕ) := by
    simp [List.ofFn_succ, Fin.prod_univ_succ, NDRange.numGroups]
  unfold launcherBuffers setKernelArgs
  simp only [hprod, hN, hs, if_true, setKernelArg]
  split_ifs <;> simp

/-- **No slot is shared.** Up to `2 ^ 32` threads, and as many places in the
global buffers as an `int` counts, the threads, the threads of a group and the
groups are numbered without gaps; no two sections share a counter; and every
access of a group has a place of its own, within the buffer of the generator
and the launcher. -/
theorem slots_spec {r : NDRange} {N m : ℕ} {t t' : Tape} {as : List ExpressionAtomicAccess}
    (hthreads : ∏ i, r.globalSize i ≤ 2 ^ 32) (hplaces : N * ∏ i, r.numGroups i < 2 ^ 31)
    (has : makeSections m (List.range N) t = some (as, t')) :
    (Set.BijOn r.getLinearGlobalId r.threads (Set.Iio (∏ i, r.globalSize i)) ∧
      (∀ k ∈ r.groups, Set.BijOn r.getLinearLocalId (r.threadsOf k)
        (Set.Iio (∏ i, r.localSize i))) ∧
      (∀ x ∈ r.threads, r.groupId x ∈ r.groups ∧
        r.getLinearGroupId x = linearId r.numGroups (r.groupId x)) ∧
      Set.BijOn (linearId r.numGroups) r.groups (Set.Iio (∏ i, r.numGroups i))) ∧
    (as.map ExpressionAtomicAccess.constant).Nodup ∧
    (∀ a ∈ as, ∀ b ∈ as, a.mem = .kGlobal → b.mem = .kGlobal → ∀ k ∈ r.groups, ∀ l ∈ r.groups,
      accessIndex N (linearId r.numGroups k) a = accessIndex N (linearId r.numGroups l) b →
        k = l ∧ a = b) ∧
    (∀ a ∈ as, a.mem = .kGlobal → ∀ k ∈ r.groups,
      accessIndex N (linearId r.numGroups k) a < globalBufferLength r N) ∧
    (∀ s : Input, s.atomics = true → s.atomicCounterNo = N →
      launcherBuffers s r = [⟨.atomicInput, .uint, (globalBufferLength r N : ℕ)⟩,
        ⟨.specialValues, .uint, (globalBufferLength r N : ℕ)⟩]) ∧
    ∀ a ∈ as, ∀ g, a.mem = .kLocal → accessIndex N g a < localBufferLength N := by
  obtain ⟨hnodup, hfree⟩ := makeSections_nodup has
  have hcon : ∀ a ∈ as, a.constant < N := fun a ha => List.mem_range.mp (hfree a ha)
  have hgroups := NDRange.linearGroupId_bijOn hthreads
  have hlength := globalBufferLength_eq hplaces
  refine ⟨⟨NDRange.getLinearGlobalId_bijOn hthreads, fun k hk =>
    NDRange.getLinearLocalId_bijOn hthreads hk, fun x hx => ⟨NDRange.groupId_mem hx, rfl⟩,
    hgroups⟩, hnodup, ?_, ?_, ?_, ?_⟩
  · intro a ha b hb hag hbg k hk l hl heq
    have hak := (accessIndex_global hag (hcon a ha) (hgroups.mapsTo hk) hplaces).1
    have hbl := (accessIndex_global hbg (hcon b hb) (hgroups.mapsTo hl) hplaces).1
    -- each group has its own stretch of the buffer, and in it each section its place
    obtain ⟨hkl, hab⟩ := part_inj (hcon a ha) (hcon b hb) ((hak.symm.trans heq).trans hbl)
    exact ⟨hgroups.injOn hk hl hkl, List.inj_on_of_nodup_map hnodup ha hb hab⟩
  · intro a ha hag k hk
    rw [hlength]
    exact (accessIndex_global hag (hcon a ha) (hgroups.mapsTo hk) hplaces).2
  · intro s hs hN
    rw [hlength]
    exact launcherBuffers_eq hs hN
  · intro a ha g hal
    unfold accessIndex localBufferLength
    rw [hal]
    exact hcon a ha

/-- Eight threads in two groups of four. -/
def twoGroups : NDRange where
  globalSize := ![4, 2, 1]
  localSize := ![2, 2, 1]
  dvd := by decide

/-- Two sections with global counters and one with a local one. -/
def threeSections : List ExpressionAtomicAccess := [⟨2, .kGlobal⟩, ⟨0, .kGlobal⟩, ⟨1, .kLocal⟩]

/-- The two groups count in places of their own, and each section in its own. -/
theorem slots_spec_twoGroups :
    (threeSections.map ExpressionAtomicAccess.constant).Nodup ∧
      accessIndex 3 (linearId twoGroups.numGroups ![0, 0, 0]) ⟨2, .kGlobal⟩ ≠
        accessIndex 3 (linearId twoGroups.numGroups ![1, 0, 0]) ⟨0, .kGlobal⟩ := by
  have h := @slots_spec twoGroups 3 3 [2, 0, 0, 0, 0, 0, 0, 1, 0] [] threeSections (by decide)
    (by decide) rfl
  have hgroups : ![0, 0, 0] ∈ twoGroups.groups ∧ ![1, 0, 0] ∈ twoGroups.groups := by
    unfold NDRange.groups
    decide
  refine ⟨h.2.1, fun heq => ?_⟩
  have hsame := h.2.2.1 ⟨2, .kGlobal⟩ (by decide) ⟨0, .kGlobal⟩ (by decide) rfl rfl ![0, 0, 0]
    hgroups.1 ![1, 0, 0] hgroups.2 heq
  exact absurd hsame.2 (by decide)

/-- `2 ^ 33` threads, of which two have the number zero. -/
def wide : NDRange where
  globalSize := ![65536, 65536, 2]
  localSize := ![1, 1, 1]
  dvd := by decide

theorem not_injOn_getLinearGlobalId : ¬ Set.InjOn wide.getLinearGlobalId wide.threads := by
  intro h
  have hmem : ![0, 0, 0] ∈ wide.threads ∧ ![0, 0, 1] ∈ wide.threads := by
    unfold NDRange.threads
    decide
  have heq := h hmem.1 hmem.2 rfl
  exact absurd (congrFun heq 2) (by decide)

end Atomic

end CLSmith
