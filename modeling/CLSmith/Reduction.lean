import CLSmith.Common.System
import Mathlib.Data.List.Perm.Basic
import Mathlib.Data.BitVec
/-!
# Atomic reductions

`StatementAtomicReduction`, run by every thread of every group: the thread
updates the reduction variable of its group atomically, waits at a barrier,
the group's first thread adds the variable to its hash, and a second
barrier closes the statement. The variable goes on from one statement to
the next, whatever the operator.

A thread's place is one number, four to a statement: before the update, at
the first barrier, before the read, at the second barrier. The barriers
keep a group within one such window (`Inv.sync`), and inside it the
updates commute, so the variable is what the threads in any order leave.
-/

namespace CLSmith

namespace Reduction

open Common

/-- The words of the reduction variables. -/
abbrev Word := BitVec 32

/-- `AtomicOp`: the operations of the reductions, of which a statement has one. -/
inductive AtomicOp
  | kAdd | kSub | kMin | kMax | kAnd | kOr | kXor
deriving DecidableEq

/-- `MemoryLoc`: where the variable of a reduction is, in local memory or in global
memory. -/
inductive MemoryLoc
  | kLocal | kGlobal
deriving DecidableEq

/-- What `atomic_add` and the others leave in the variable. -/
def AtomicOp.apply : AtomicOp → Word → Word → Word
  | kAdd, v, a => v + a
  | kSub, v, a => v - a
  | kMin, v, a => if v ≤ a then v else a
  | kMax, v, a => if v ≤ a then a else v
  | kAnd, v, a => v &&& a
  | kOr, v, a => v ||| a
  | kXor, v, a => v ^^^ a

/-- **A reduction statement**; `expr` is what its expression evaluates to in
a thread of a group. -/
structure AtomicReduction where
  expr : ℕ → ℕ → Word
  addGlobal : Bool
  op : AtomicOp
  memLoc : MemoryLoc

/-- **A launch** of a sequence of reduction statements. The expressions reduced are
data, a word for each thread and statement. -/
structure Kernel where
  groups : ℕ
  size : ℕ
  linearGlobalId : ℕ → ℕ → Word
  stmts : List AtomicReduction

/-- The operand of a thread: `expr`, or `expr + get_linear_global_id()`. -/
def Kernel.operand (K : Kernel) (r : AtomicReduction) (g t : ℕ) : Word :=
  if r.addGlobal then r.expr g t + K.linearGlobalId g t else r.expr g t

/-- The state: where each thread of each group is, the reduction variables
(`l_atomic_reduction[0]` of a group, `g_atomic_reduction` at its linear
group id), the hash of each group's first thread, and what has been added
to it. -/
structure State where
  pc : ℕ → ℕ → ℕ
  var : MemoryLoc → ℕ → Word
  hash : ℕ → Word
  added : ℕ → List Word

namespace State

/-- The variables are zero at first. -/
def start : State := ⟨fun _ _ => 0, fun _ _ => 0, fun _ => 0, fun _ => []⟩

variable (s : State) (g t : ℕ)

/-- Thread `t` of group `g` is one place further. -/
def advance : State :=
  { s with pc := Function.update s.pc g (Function.update (s.pc g) t (s.pc g t + 1)) }

/-- The atomic update. -/
def update (K : Kernel) (r : AtomicReduction) : State :=
  { s with
    var := Function.update s.var r.memLoc (Function.update (s.var r.memLoc) g
      (r.op.apply (s.var r.memLoc g) (K.operand r g t))) }

/-- `v_collective += ` the variable. -/
def read (r : AtomicReduction) : State :=
  { s with
    hash := Function.update s.hash g (s.hash g + s.var r.memLoc g)
    added := Function.update s.added g (s.added g ++ [s.var r.memLoc g]) }

end State

namespace Kernel

variable (K : Kernel)

/-- **The step of thread `t` of group `g`**, where it has one. A statement is four
steps: the update, a barrier, the read by the first thread, and a barrier. -/
def stepThread (s : State) (g t : ℕ) : Option State :=
  match K.stmts[s.pc g t / 4]? with
  | none => none
  | some r =>
    if s.pc g t % 4 = 0 then some ((s.update g t K r).advance g t)
    else if s.pc g t % 4 = 2 then some ((if t = 0 then s.read g r else s).advance g t)
    else if ∀ u < K.size, s.pc g t ≤ s.pc g u then some (s.advance g t)
    else none

/-- **The runs of a launch**: in each step some thread of some group goes on. -/
def system : System State where
  Init s := s = State.start
  Step s s' := ∃ g < K.groups, ∃ t < K.size, K.stepThread s g t = some s'

/-- Thread `t` of group `g` is about to update, or to read, for statement
`i`. -/
def AtUpdate (s : State) (g t i : ℕ) : Prop := i < K.stmts.length ∧ s.pc g t = 4 * i

def AtRead (s : State) (g t i : ℕ) : Prop := i < K.stmts.length ∧ s.pc g t = 4 * i + 2

def Finished (s : State) : Prop := ∀ g < K.groups, ∀ t < K.size, s.pc g t = 4 * K.stmts.length

/-- The variable of a group after `n` statements, the threads updating in
the order of their ids. -/
def after (K : Kernel) (g : ℕ) (m : MemoryLoc) : ℕ → Word
  | 0 => 0
  | n + 1 => match K.stmts[n]? with
    | none => K.after g m n
    | some r =>
      if r.memLoc = m then
        (List.range K.size).foldl (fun v t => r.op.apply v (K.operand r g t)) (K.after g m n)
      else K.after g m n

/-- **What a group's first thread adds to its hash**, statement by statement. It is a
function of the launch alone, with no run in it. -/
def expected (g : ℕ) : List Word := K.stmts.zipIdx.map fun x => K.after g x.1.memLoc (x.2 + 1)

end Kernel

/-! ## The updates of a statement commute -/

theorem AtomicOp.apply_comm (op : AtomicOp) (v a b : Word) :
    op.apply (op.apply v a) b = op.apply (op.apply v b) a := by
  cases op with
  | kAdd => simp only [apply, BitVec.add_assoc, BitVec.add_comm a b]
  | kSub => simp only [apply]; grind
  | kMin => simp only [apply]; grind
  | kMax => simp only [apply]; grind
  | kAnd => simp only [apply, BitVec.and_assoc, BitVec.and_comm a b]
  | kOr => simp only [apply, BitVec.or_assoc, BitVec.or_comm a b]
  | kXor => simp only [apply, BitVec.xor_assoc, BitVec.xor_comm a b]

/-! ## Where the threads are -/

section Places

variable {K : Kernel} {s s' : State} {r : AtomicReduction} {g h t u n i : ℕ} {m : MemoryLoc}

theorem advance_pc_self : (s.advance g t).pc g t = s.pc g t + 1 := by
  simp [State.advance]

theorem advance_pc_of_ne (hne : ¬ (h = g ∧ u = t)) : (s.advance g t).pc h u = s.pc h u := by
  unfold State.advance
  rcases eq_or_ne h g with rfl | hg
  · simp only [Function.update_self]
    exact Function.update_of_ne (fun hu => hne ⟨rfl, hu⟩) _ _
  · simp only [Function.update_of_ne hg]

/-- **What a step of thread `t` of group `g` is**: an update, a read by the
first thread, the same place without one by another, or past a barrier. -/
theorem stepThread_cases (h : K.stepThread s g t = some s') :
    ∃ r, K.stmts[s.pc g t / 4]? = some r ∧
      (s.pc g t % 4 = 0 ∧ s' = (s.update g t K r).advance g t ∨
      s.pc g t % 4 = 2 ∧ t = 0 ∧ s' = (s.read g r).advance g t ∨
      s.pc g t % 4 = 2 ∧ t ≠ 0 ∧ s' = s.advance g t ∨
      s.pc g t % 2 = 1 ∧ (∀ u < K.size, s.pc g t ≤ s.pc g u) ∧ s' = s.advance g t) := by
  unfold Kernel.stepThread at h
  split at h
  · cases h
  next r hr =>
  refine ⟨r, hr, ?_⟩
  split at h
  · next h0 => exact .inl ⟨h0, (Option.some.inj h).symm⟩
  · next h0 =>
    right
    split at h
    · next h2 =>
      by_cases ht : t = 0
      · rw [if_pos ht] at h
        exact .inl ⟨h2, ht, (Option.some.inj h).symm⟩
      · rw [if_neg ht] at h
        exact .inr (.inl ⟨h2, ht, (Option.some.inj h).symm⟩)
    · next h2 =>
      right; right
      split at h
      · next hall => exact ⟨by omega, hall, (Option.some.inj h).symm⟩
      · cases h

/-- Where a step leaves the threads: the one that takes it one further. -/
theorem stepThread_pc (h : K.stepThread s g t = some s') :
    s'.pc g t = s.pc g t + 1 ∧ (∀ h u, ¬ (h = g ∧ u = t) → s'.pc h u = s.pc h u) ∧
      (s.pc g t % 2 = 1 → ∀ u < K.size, s.pc g t ≤ s.pc g u) := by
  obtain ⟨r, -, hcase⟩ := stepThread_cases h
  rcases hcase with ⟨h0, rfl⟩ | ⟨h2, -, rfl⟩ | ⟨h2, -, rfl⟩ | ⟨-, hall, rfl⟩
  · exact ⟨advance_pc_self, fun _ _ hne => advance_pc_of_ne hne, by omega⟩
  · exact ⟨advance_pc_self, fun _ _ hne => advance_pc_of_ne hne, by omega⟩
  · exact ⟨advance_pc_self, fun _ _ hne => advance_pc_of_ne hne, by omega⟩
  · exact ⟨advance_pc_self, fun _ _ hne => advance_pc_of_ne hne, fun _ => hall⟩

/-- **The threads of a group are in step**: past a barrier one of them is
only when all have come to it. -/
def InStep (K : Kernel) (s : State) : Prop :=
  ∀ g, ∀ t < K.size, ∀ u < K.size, ∀ b, b % 2 = 1 → b < s.pc g t → b ≤ s.pc g u

theorem inStep_step (hi : InStep K s) (ht : t < K.size) (h : K.stepThread s g t = some s') :
    InStep K s' := by
  obtain ⟨hself, hother, hbar⟩ := stepThread_pc h
  intro h' x hx u hu b hb hlt
  by_cases hxt : h' = g ∧ x = t <;> by_cases hut : h' = g ∧ u = t
  · obtain ⟨rfl, rfl⟩ := hxt
    obtain ⟨-, rfl⟩ := hut
    omega
  · obtain ⟨rfl, rfl⟩ := hxt
    rw [hself] at hlt
    rw [hother h' u hut]
    rcases Nat.lt_or_ge b (s.pc h' x) with hlt' | hge
    · exact hi h' x hx u hu b hb hlt'
    · -- the step is past the barrier `b` itself
      have hbx : b = s.pc h' x := by omega
      rw [hbx]
      exact hbar (by omega) u hu
  · obtain ⟨rfl, rfl⟩ := hut
    rw [hother h' x hxt] at hlt
    have := hi h' x hx u hu b hb hlt
    rw [hself]
    omega
  · rw [hother h' x hxt] at hlt
    rw [hother h' u hut]
    exact hi h' x hx u hu b hb hlt

/-- A thread about to update for statement `n` has no other ahead of that
statement's first barrier, and none behind the barrier before. -/
theorem InStep.of_update (hi : InStep K s) (ht : t < K.size) (hu : u < K.size)
    (hpc : s.pc g t = 4 * n) : s.pc g u ≤ 4 * n + 1 ∧ 4 * n ≤ s.pc g u + 1 := by
  constructor
  · by_contra hlt
    have := hi g u hu t ht (4 * n + 1) (by omega) (by omega)
    omega
  · rcases Nat.eq_zero_or_pos n with rfl | hn
    · omega
    · have := hi g t ht u hu (4 * n - 1) (by omega) (by omega)
      omega

/-- **While a thread is at the read of a statement**, the others of its
group are between the statement's barriers, or at one of them. -/
theorem InStep.of_read (hi : InStep K s) (ht : t < K.size) (hu : u < K.size)
    (hpc : s.pc g t = 4 * n + 2) : 4 * n + 1 ≤ s.pc g u ∧ s.pc g u ≤ 4 * n + 3 := by
  constructor
  · exact hi g t ht u hu (4 * n + 1) (by omega) (by omega)
  · by_contra hlt
    have := hi g u hu t ht (4 * n + 3) (by omega) (by omega)
    omega

end Places

/-! ## What the variable holds -/

section Values

variable {K : Kernel} {s s' : State} {r : AtomicReduction} {g h t u n i : ℕ} {m : MemoryLoc}

/-- The threads of a group that have updated for statement `n`. -/
def State.updated (s : State) (K : Kernel) (g n : ℕ) : List ℕ :=
  (List.range K.size).filter fun t => 4 * n < s.pc g t

/-- The variable of a group after the updates made so far, up to those of
statement `n`. -/
def State.soFar (s : State) (K : Kernel) (g : ℕ) (m : MemoryLoc) : ℕ → Word
  | 0 => 0
  | n + 1 => match K.stmts[n]? with
    | none => s.soFar K g m n
    | some r =>
      if r.memLoc = m then
        (s.updated K g n).foldl (fun v t => r.op.apply v (K.operand r g t)) (s.soFar K g m n)
      else s.soFar K g m n

/-- It depends on who has updated, and on nothing else. -/
theorem soFar_congr (h : ∀ i < n, s'.updated K g i = s.updated K g i) :
    s'.soFar K g m n = s.soFar K g m n := by
  induction n with
  | zero => rfl
  | succ n ih =>
    have ih := ih fun i hi => h i (by omega)
    unfold State.soFar
    rw [ih, h n (Nat.lt_succ_self n)]

/-- Statements nobody has updated for yet do not count. -/
theorem soFar_of_empty (hle : i ≤ n) (h : ∀ j, i ≤ j → s.updated K g j = []) :
    s.soFar K g m n = s.soFar K g m i := by
  induction n with
  | zero =>
    obtain rfl : i = 0 := by omega
    rfl
  | succ n ih =>
    rcases Nat.eq_or_lt_of_le hle with rfl | hlt
    · rfl
    · rw [State.soFar, h n (by omega), ih (by omega)]
      split
      · rfl
      · split <;> rfl

/-- Where every thread has updated for the statements below `n`, their
order is that of their ids. -/
theorem soFar_eq_after (h : ∀ j < n, ∀ t < K.size, 4 * j < s.pc g t) :
    s.soFar K g m n = K.after g m n := by
  induction n with
  | zero => rfl
  | succ n ih =>
    have hall : s.updated K g n = List.range K.size := by
      refine List.filter_eq_self.mpr fun t ht => ?_
      simpa using h n (Nat.lt_succ_self n) t (List.mem_range.mp ht)
    rw [State.soFar, Kernel.after, hall, ih fun j hj => h j (by omega)]

/-- A thread that joins those that have updated may as well be the last. -/
theorem updated_perm (ht : t < K.size) (hbefore : s.pc g t ≤ 4 * n) (hafter : 4 * n < s'.pc g t)
    (hother : ∀ u, u ≠ t → s'.pc g u = s.pc g u) :
    (s'.updated K g n).Perm (s.updated K g n ++ [t]) := by
  have hnd : ∀ s : State, (s.updated K g n).Nodup := fun s => List.nodup_range.filter _
  have hmem : ∀ (s : State) u, u ∈ s.updated K g n ↔ u < K.size ∧ 4 * n < s.pc g u := by
    intro s u
    simp [State.updated]
  refine (List.perm_ext_iff_of_nodup (hnd s') ?_).mpr fun u => ?_
  · refine List.nodup_append.mpr ⟨hnd s, by simp, fun a ha b hb he => ?_⟩
    obtain rfl : b = t := by simpa using hb
    have := ((hmem s a).mp ha).2
    rw [he] at this
    omega
  · rw [List.mem_append, List.mem_singleton, hmem, hmem]
    rcases eq_or_ne u t with rfl | hne
    · simp [ht, hafter]
    · simp [hother u hne, hne]

/-- Who has updated is who is past the update. -/
theorem updated_congr (h : ∀ t < K.size, 4 * n < s'.pc g t ↔ 4 * n < s.pc g t) :
    s'.updated K g n = s.updated K g n := by
  refine List.filter_congr fun t ht => ?_
  simp only [h t (List.mem_range.mp ht)]

/-- **One update**: what has been reduced so far takes in the thread's
operand, for the variable of its statement. -/
theorem soFar_update (hi : InStep K s) (ht : t < K.size) (hr : K.stmts[n]? = some r)
    (hpc : s.pc g t = 4 * n) (hself : s'.pc g t = 4 * n + 1)
    (hother : ∀ u, u ≠ t → s'.pc g u = s.pc g u) :
    s'.soFar K g m K.stmts.length = if r.memLoc = m then
      r.op.apply (s.soFar K g m K.stmts.length) (K.operand r g t)
    else s.soFar K g m K.stmts.length := by
  have hlen : n + 1 ≤ K.stmts.length := by
    have := (List.getElem?_eq_some_iff.mp hr).1
    omega
  -- statements behind this one have not begun, in this state or the next
  have hempty : ∀ j, n + 1 ≤ j → s.updated K g j = [] ∧ s'.updated K g j = [] := by
    intro j hj
    have hle : ∀ u < K.size, s.pc g u ≤ 4 * n + 1 := fun u hu => (hi.of_update ht hu hpc).1
    refine ⟨List.filter_eq_nil_iff.mpr fun u hu => ?_, List.filter_eq_nil_iff.mpr fun u hu => ?_⟩
    · have := hle u (List.mem_range.mp hu)
      simp only [decide_eq_true_eq]
      omega
    · have := hle u (List.mem_range.mp hu)
      simp only [decide_eq_true_eq]
      rcases eq_or_ne u t with rfl | hne
      · omega
      · rw [hother u hne]
        omega
  have hbefore : s'.soFar K g m n = s.soFar K g m n := by
    refine soFar_congr fun j hj => updated_congr fun u hu => ?_
    rcases eq_or_ne u t with rfl | hne
    · omega
    · rw [hother u hne]
  rw [soFar_of_empty hlen fun j hj => (hempty j hj).2,
    soFar_of_empty hlen fun j hj => (hempty j hj).1]
  simp only [State.soFar, hr, hbefore]
  split
  · have hperm := updated_perm (K := K) ht hpc.le (by omega) hother
    have hcomm : RightCommutative fun v t => r.op.apply v (K.operand r g t) :=
      ⟨fun v a b => r.op.apply_comm v _ _⟩
    rw [hperm.foldl_eq, List.foldl_append]
    rfl
  · rfl

/-- A step that is no update leaves it as it is. -/
theorem soFar_keep (hpc : s.pc g t % 4 ≠ 0) (hself : s'.pc g t = s.pc g t + 1)
    (hother : ∀ u, u ≠ t → s'.pc g u = s.pc g u) : s'.soFar K g m n = s.soFar K g m n := by
  refine soFar_congr fun j _ => updated_congr fun u _ => ?_
  rcases eq_or_ne u t with rfl | hne
  · omega
  · rw [hother u hne]

end Values

/-! ## The invariant -/

section Invariant

variable {K : Kernel} {s s' : State} {r : AtomicReduction} {g h t u n : ℕ} {m : MemoryLoc}

/-- How many statements a thread has read for, or passed. -/
def reads (pc : ℕ) : ℕ := (pc + 1) / 4

/-- **The invariant of a launch.** The threads of a group are in one statement or at
the barrier between two, and a variable holds what the updates made so far come to. -/
structure Inv (K : Kernel) (s : State) : Prop where
  inStep : InStep K s
  var : ∀ m g, s.var m g = s.soFar K g m K.stmts.length
  added : ∀ g, s.added g = (K.expected g).take (reads (s.pc g 0))

theorem inv_start : Inv K State.start := by
  refine ⟨fun g t _ u _ b _ hlt => ?_, fun m g => ?_, fun g => ?_⟩
  · simp [State.start] at hlt
  · have : (State.start).soFar K g m K.stmts.length = 0 :=
      soFar_of_empty (Nat.zero_le _) fun j _ => by simp [State.updated, State.start]
    rw [this]
    rfl
  · simp [State.start, reads]

/-- What the first thread of a group reads is the variable after the
statement, all threads' updates in it. -/
theorem Inv.read (hi : Inv K s) (ht : t < K.size) (hr : K.stmts[n]? = some r)
    (hpc : s.pc g t = 4 * n + 2) : s.var m g = K.after g m (n + 1) := by
  have hlen := (List.getElem?_eq_some_iff.mp hr).1
  have hwin : ∀ u < K.size, 4 * n + 1 ≤ s.pc g u ∧ s.pc g u ≤ 4 * n + 3 :=
    fun u hu => hi.inStep.of_read ht hu hpc
  rw [hi.var, ← soFar_eq_after fun j hj u hu => ?_]
  · refine soFar_of_empty (by omega) fun j hj => List.filter_eq_nil_iff.mpr fun u hu => ?_
    have := hwin u (List.mem_range.mp hu)
    simp only [decide_eq_true_eq]
    omega
  · have := hwin u hu
    omega

/-- **Every step keeps the invariant.** -/
theorem Inv.step (hi : Inv K s) (ht : t < K.size) (h : K.stepThread s g t = some s') :
    Inv K s' := by
  obtain ⟨hself, hother, -⟩ := stepThread_pc h
  have hgroup : ∀ u, u ≠ t → s'.pc g u = s.pc g u := fun u hu => hother g u fun e => hu e.2
  -- in another group nothing changes
  have hsoFar : ∀ {h}, h ≠ g → ∀ m n, s'.soFar K h m n = s.soFar K h m n := by
    intro h hne m n
    refine soFar_congr fun j _ => updated_congr fun u _ => ?_
    rw [hother h u fun e => hne e.1]
  have hpc0 : ∀ {h}, ¬ (h = g ∧ 0 = t) → s'.pc h 0 = s.pc h 0 := fun hne => hother _ 0 hne
  obtain ⟨r, hr, hcase⟩ := stepThread_cases h
  refine ⟨inStep_step hi.inStep ht h, fun m h' => ?_, fun h' => ?_⟩
  · rcases eq_or_ne h' g with rfl | hne
    · rcases hcase with ⟨h0, rfl⟩ | ⟨h2, -, rfl⟩ | ⟨h2, -, rfl⟩ | ⟨h1, -, rfl⟩
      · have hupd := soFar_update (m := m) hi.inStep ht hr (by omega) (by omega) hgroup
        rw [hupd, ← hi.var]
        change Function.update s.var r.memLoc _ m h' = _
        split
        · next hm =>
          subst hm
          simp only [Function.update_self]
        · next hm => rw [Function.update_of_ne (Ne.symm hm)]
      · rw [soFar_keep (by omega) hself hgroup]
        exact hi.var m h'
      · rw [soFar_keep (by omega) hself hgroup]
        exact hi.var m h'
      · rw [soFar_keep (by omega) hself hgroup]
        exact hi.var m h'
    · rw [hsoFar hne, ← hi.var]
      rcases hcase with ⟨-, rfl⟩ | ⟨-, -, rfl⟩ | ⟨-, -, rfl⟩ | ⟨-, -, rfl⟩
      · change Function.update s.var r.memLoc _ m h' = _
        rcases eq_or_ne m r.memLoc with rfl | hm
        · rw [Function.update_self, Function.update_of_ne hne]
        · rw [Function.update_of_ne hm]
      all_goals rfl
  · have hkeep : s'.added h' = s.added h' → reads (s'.pc h' 0) = reads (s.pc h' 0) →
        s'.added h' = (K.expected h').take (reads (s'.pc h' 0)) := by
      intro he hn
      rw [he, hn]
      exact hi.added h'
    by_cases hfirst : h' = g ∧ 0 = t
    · obtain ⟨rfl, rfl⟩ := hfirst
      rcases hcase with ⟨h0, rfl⟩ | ⟨h2, -, rfl⟩ | ⟨-, hne, -⟩ | ⟨h1, -, rfl⟩
      · refine hkeep rfl ?_
        unfold reads
        omega
      · -- the read: one value more
        have hn : reads (s.pc h' 0) = s.pc h' 0 / 4 := by
          unfold reads
          omega
        have hn' : reads (((s.read h' r).advance h' 0).pc h' 0) = s.pc h' 0 / 4 + 1 := by
          rw [hself]
          unfold reads
          omega
        have hval := hi.read (g := h') (m := r.memLoc) ht hr (by omega)
        have hlen := (List.getElem?_eq_some_iff.mp hr).1
        have hget : (K.expected h')[s.pc h' 0 / 4]? = some (s.var r.memLoc h') := by
          rw [Kernel.expected, List.getElem?_map, List.getElem?_zipIdx, hr, hval]
          simp
        rw [hn', List.take_add_one, hget]
        change Function.update s.added h' _ h' = _
        rw [Function.update_self, hi.added h', hn]
        rfl
      · exact absurd rfl hne
      · refine hkeep rfl ?_
        unfold reads
        omega
    · refine hkeep ?_ (by rw [hpc0 hfirst])
      rcases hcase with ⟨-, rfl⟩ | ⟨-, rfl, rfl⟩ | ⟨-, -, rfl⟩ | ⟨-, -, rfl⟩
      · rfl
      · exact Function.update_of_ne (fun e => hfirst ⟨e, rfl⟩) _ _
      · rfl
      · rfl

/-- **The invariant holds in every run.** -/
theorem reachable_inv (h : K.system.Reachable s) : Inv K s := by
  refine h.invariant (I := Inv K) (fun s hs => ?_) fun s s' _ hi hstep => ?_
  · obtain rfl : s = State.start := hs
    exact inv_start
  · obtain ⟨g, -, t, ht, hstep⟩ := hstep
    exact hi.step ht hstep

/-- A step of a group leaves the variables of the others alone. -/
theorem stepThread_var (h : K.stepThread s g t = some s') {g' : ℕ} (hne : g' ≠ g) :
    s'.var m g' = s.var m g' := by
  obtain ⟨r, -, hcase⟩ := stepThread_cases h
  rcases hcase with ⟨-, rfl⟩ | ⟨-, -, rfl⟩ | ⟨-, -, rfl⟩ | ⟨-, -, rfl⟩
  · change Function.update s.var r.memLoc _ m g' = _
    rcases eq_or_ne m r.memLoc with rfl | hm
    · rw [Function.update_self, Function.update_of_ne hne]
    · rw [Function.update_of_ne hm]
  all_goals rfl

/-- **Atomic reductions are deterministic.** In every state of every run,
while the first thread of a group is at the read of a statement no thread
of the group is at an update; no step touches another group's variables;
and what a group's first thread has added to its hash are the first of the
values the launch fixes, and all of them once every thread is through. -/
theorem reductions_deterministic (K : Kernel) :
    (∀ s, K.system.Reachable s → ∀ g, ∀ t < K.size, ∀ u < K.size, ∀ i j,
      K.AtRead s g t i → ¬ K.AtUpdate s g u j) ∧
    (∀ s s' g t, K.stepThread s g t = some s' → ∀ g' ≠ g, ∀ m, s'.var m g' = s.var m g') ∧
    (∀ s, K.system.Reachable s → ∀ g < K.groups, s.added g <+: K.expected g ∧
      (0 < K.size → K.Finished s → s.added g = K.expected g)) := by
  refine ⟨fun s hs g t ht u hu i j hread hupd => ?_, fun s s' g t h g' hne m =>
    stepThread_var h hne, fun s hs g hg => ⟨?_, fun hpos hfin => ?_⟩⟩
  · have := (reachable_inv hs).inStep.of_read ht hu hread.2
    have := hupd.2
    omega
  · rw [(reachable_inv hs).added g]
    exact List.take_prefix _ _
  · rw [(reachable_inv hs).added g, hfin g hg 0 hpos]
    refine List.take_of_length_le ?_
    simp only [Kernel.expected, List.length_map, List.length_zipIdx, reads]
    omega

end Invariant

end Reduction

end CLSmith
