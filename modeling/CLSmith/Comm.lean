import CLSmith.SafeMath.Values
import Mathlib.Data.List.Perm.Basic
/-!
# Inter-thread communication

`StatementComm`: a barrier, and then each thread of a group takes the slot a
permutation gives for the slot it had. The slot picks the thread's elements
of the two comm buffers, which any expression of the program may access, the
random expression that selects the permutation included.
-/

namespace CLSmith

namespace Comm

open Common SafeMath

/-- `SafeOpFlags`. -/
structure SafeOpFlags where
  op1 : Bool
  op2 : Bool
  isFunc : Bool
  opSize : Width

/-- The function `SafeOpFlags::to_string` names: the sign of the first
operand stands for both, but in a shift. -/
def SafeOpFlags.call (flags : SafeOpFlags) (op : Op) (x y : ℤ) : Option ℤ :=
  match (macroForm .b64 ⟨flags.op1, flags.opSize⟩ op x y).eval with
  | .ok v => some v
  | .error _ => none

/-- **A launch**: its groups, `get_threads_per_group()`, and the ten
permutations `InitBuffers` shuffles. The number of all threads is an
`unsigned`. -/
structure Launch where
  groups : ℕ
  groupSize : ℕ
  permutations : List (List ℕ)
  groupSize_pos : 0 < groupSize
  total_lt : groups * groupSize < 2 ^ 32
  length_eq : permutations.length = 10
  perm : ∀ row ∈ permutations, row.Perm (List.range groupSize)

/-- The comm buffers. -/
inductive Buffer
  | g_comm_values | l_comm_values
deriving DecidableEq

/-- An element of a comm buffer; each group has its own `l_comm_values`. -/
inductive Element
  | global (i : ℕ)
  | loc (group i : ℕ)
deriving DecidableEq

/-- **A `StatementComm`**, with the value of `rand_expr` in each group, the
comm buffers its evaluation accesses, and those accessed after it up to the
next one. -/
structure Stm where
  randExpr : ℕ → BitVec 32
  uses : List Buffer
  body : List Buffer

namespace Launch

variable (L : Launch)

/-- `permutations[k][i]`, within its bounds. -/
def itemize (k i : ℤ) : Option ℤ :=
  if k < 0 ∨ i < 0 then none
  else do
    let row ← L.permutations[k.toNat]?
    let p ← row[i.toNat]?
    pure (p : ℤ)

/-- The initial value of `tid` in a thread, by its group and local ids. -/
def initialTid (g l : ℕ) : Option ℤ := do
  let base ← SafeOpFlags.call ⟨false, false, true, .w32⟩ .mul g L.groupSize
  let p ← L.itemize 0 l
  SafeOpFlags.call ⟨false, false, true, .w32⟩ .add base p

/-- The assignment of `make_random`. -/
def nextTid (g : ℕ) (c : Stm) (tid : ℤ) : Option ℤ := do
  let k ← SafeOpFlags.call ⟨false, true, true, .w32⟩ .mod (c.randExpr g).toNat 10
  let i ← SafeOpFlags.call ⟨false, false, true, .w32⟩ .mod tid L.groupSize
  let p ← L.itemize k i
  let base ← SafeOpFlags.call ⟨false, false, true, .w32⟩ .mul g L.groupSize
  SafeOpFlags.call ⟨false, false, true, .w32⟩ .add base p

/-- The value of `tid` after the statements. -/
def tidAfter (g l : ℕ) (cs : List Stm) : Option ℤ := do
  let tid ← L.initialTid g l
  cs.foldlM (fun tid c => L.nextTid g c tid) tid

/-- The element of a comm buffer a thread accesses, within its bounds. -/
def element (g : ℕ) (tid : ℤ) : Buffer → Option Element
  | .g_comm_values =>
    if 0 ≤ tid ∧ tid < L.groups * L.groupSize then some (.global tid.toNat) else none
  | .l_comm_values => do
    let i ← SafeOpFlags.call ⟨false, true, true, .w32⟩ .mod tid L.groupSize
    if 0 ≤ i ∧ i < L.groupSize then some (.loc g i.toNat) else none

/-- **What a thread accesses between its barriers** `k` and `k + 1`, the
first of which stands before the program. After the barrier of a statement
its `rand_expr` is evaluated, with the old `tid`. -/
def phase (start : List Buffer) (cs : List Stm) (g l : ℕ) : ℕ → Option (List Element)
  | 0 => do
    let tid ← L.tidAfter g l []
    start.mapM (L.element g tid)
  | k + 1 => do
    let c ← cs[k]?
    let old ← L.tidAfter g l (cs.take k)
    let new ← L.tidAfter g l (cs.take (k + 1))
    let used ← c.uses.mapM (L.element g old)
    let accessed ← c.body.mapM (L.element g new)
    pure (used ++ accessed)

/-- The launch has the thread. -/
def Thread (t : ℕ × ℕ) : Prop := t.1 < L.groups ∧ t.2 < L.groupSize

/-- **Inter-thread communication is race free**: after the initialisation
and after each statement the `tid`s of a group are distinct and in the
group's range, every access is within bounds, and no two threads access the
same element between two consecutive barriers. -/
structure RaceFree (start : List Buffer) (cs : List Stm) : Prop where
  range : ∀ t, L.Thread t → ∀ n ≤ cs.length, ∃ tid, L.tidAfter t.1 t.2 (cs.take n) = some tid ∧
    (t.1 * L.groupSize : ℤ) ≤ tid ∧ tid < (t.1 + 1) * L.groupSize
  distinct : ∀ t t', L.Thread t → L.Thread t' → t.1 = t'.1 → t ≠ t' → ∀ n ≤ cs.length,
    L.tidAfter t.1 t.2 (cs.take n) ≠ L.tidAfter t'.1 t'.2 (cs.take n)
  bounds : ∀ t, L.Thread t → ∀ k ≤ cs.length, (L.phase start cs t.1 t.2 k).isSome
  apart : ∀ t t', L.Thread t → L.Thread t' → t ≠ t' → ∀ k k', (t.1 = t'.1 → k = k') →
    ∀ xs xs', L.phase start cs t.1 t.2 k = some xs → L.phase start cs t'.1 t'.2 k' = some xs' →
    List.Disjoint xs xs'

/-- The statement gives every slot to the thread that has it. -/
def Stays (g : ℕ) (c : Stm) : Prop :=
  L.permutations[(c.randExpr g).toNat % 10]? = some (List.range L.groupSize)

/-- Where the evaluation of `rand_expr` accesses a comm buffer that is
accessed before the next barrier, the statement moves no slot. -/
def Quiet (cs : List Stm) : Prop :=
  ∀ c ∈ cs, ∀ g < L.groups, (∃ b ∈ c.uses, b ∈ c.body) → L.Stays g c

end Launch

/-! ## The arithmetic -/

section Arithmetic

variable {flags : SafeOpFlags} {x y : ℕ}

theorem wrap_word (h : x < 2 ^ 32) : (⟨false, .w32⟩ : IntTy).wrap x = x := by
  refine IntTy.wrap_of_inRange ?_
  have hlt : (x : ℤ) < 2 ^ 32 := by exact_mod_cast h
  constructor
  · show (0 : ℤ) ≤ x
    omega
  · show (x : ℤ) ≤ 0 + 2 ^ 32 - 1
    omega

theorem call_eq (op : Op) (hflags : flags.op1 = false) (hsize : flags.opSize = .w32)
    (hright : op.rightTy ⟨false, .w32⟩ = ⟨false, .w32⟩) (hx : x < 2 ^ 32) (hy : y < 2 ^ 32) :
    flags.call op x y = some (macroVal ⟨false, .w32⟩ x y op) := by
  have hret := macro_returns .b64 ⟨false, .w32⟩ op x y
  rw [hright, wrap_word hx, wrap_word hy] at hret
  unfold SafeOpFlags.call
  rw [hflags, hsize, show Expr.eval _ = _ from hret]

theorem call_mod (hflags : flags.op1 = false) (hsize : flags.opSize = .w32) (hx : x < 2 ^ 32)
    (hy : y < 2 ^ 32) (hpos : 0 < y) : flags.call .mod x y = some ((x % y : ℕ) : ℤ) := by
  rw [call_eq .mod hflags hsize rfl hx hy]
  have hkept : ¬ DivKept ⟨false, .w32⟩ (x : ℤ) y := by
    rintro (h | h)
    · omega
    · exact absurd h.1 (by decide)
  show some (if DivKept ⟨false, .w32⟩ (x : ℤ) y then (x : ℤ) else (x : ℤ).tmod y) = _
  rw [if_neg hkept]
  rfl

theorem call_mul (hflags : flags.op1 = false) (hsize : flags.opSize = .w32) (hx : x < 2 ^ 32)
    (hy : y < 2 ^ 32) (h : x * y < 2 ^ 32) : flags.call .mul x y = some ((x * y : ℕ) : ℤ) := by
  rw [call_eq .mul hflags hsize rfl hx hy]
  show some ((⟨false, .w32⟩ : IntTy).wrap ((x : ℤ) * y)) = _
  rw [← Nat.cast_mul, wrap_word h]

theorem call_add (hflags : flags.op1 = false) (hsize : flags.opSize = .w32) (hx : x < 2 ^ 32)
    (hy : y < 2 ^ 32) (h : x + y < 2 ^ 32) : flags.call .add x y = some ((x + y : ℕ) : ℤ) := by
  rw [call_eq .add hflags hsize rfl hx hy]
  show some ((⟨false, .w32⟩ : IntTy).promote.wrap ((x : ℤ) + y)) = _
  rw [← Nat.cast_add]
  exact congrArg some (wrap_word h)

end Arithmetic

/-! ## Slots -/

namespace Launch

variable {L : Launch} {g l s : ℕ} {c : Stm} {cs : List Stm}

/-- The row of the permutations `k` stands for. -/
def row (L : Launch) (k : ℕ) : List ℕ := L.permutations.getD (k % 10) []

theorem row_get (k : ℕ) : L.permutations[k % 10]? = some (L.row k) := by
  have hlt : k % 10 < L.permutations.length := by
    rw [L.length_eq]
    omega
  unfold row
  rw [List.getD_eq_getElem _ _ hlt, List.getElem?_eq_getElem hlt]

theorem row_perm (k : ℕ) : (L.row k).Perm (List.range L.groupSize) :=
  L.perm _ (List.mem_of_getElem? (row_get k))

theorem row_length (k : ℕ) : (L.row k).length = L.groupSize := by
  rw [(row_perm k).length_eq, List.length_range]

/-- The slot a permutation gives for a slot. -/
def slot (L : Launch) (k s : ℕ) : ℕ := (L.row k).getD s 0

theorem slot_get (k : ℕ) (hs : s < L.groupSize) : (L.row k)[s]? = some (L.slot k s) := by
  have hlt : s < (L.row k).length := by
    rw [row_length]
    exact hs
  unfold slot
  rw [List.getD_eq_getElem _ _ hlt, List.getElem?_eq_getElem hlt]

theorem slot_lt (k : ℕ) (hs : s < L.groupSize) : L.slot k s < L.groupSize :=
  List.mem_range.mp ((row_perm k).mem_iff.mp (List.mem_of_getElem? (slot_get k hs)))

/-- **A permutation gives different slots for different slots.** -/
theorem slot_inj {s' : ℕ} (k : ℕ) (hs : s < L.groupSize) (hs' : s' < L.groupSize)
    (h : L.slot k s = L.slot k s') : s = s' := by
  have hnodup : (L.row k).Nodup := (row_perm k).nodup_iff.mpr List.nodup_range
  have hlt : s < (L.row k).length := by
    rw [row_length]
    exact hs
  have hget : (L.row k)[s]? = (L.row k)[s']? := by rw [slot_get k hs, slot_get k hs', h]
  exact (List.getElem?_inj hlt hnodup).mp hget

/-- It gives every slot. -/
theorem exists_slot (k : ℕ) (hs : s < L.groupSize) : ∃ s' < L.groupSize, L.slot k s' = s := by
  have hmem : s ∈ L.row k := (row_perm k).mem_iff.mpr (List.mem_range.mpr hs)
  obtain ⟨i, hi⟩ := List.mem_iff_getElem?.mp hmem
  have hlt : i < L.groupSize := by
    rw [← row_length k]
    exact (List.getElem?_eq_some_iff.mp hi).1
  rw [slot_get k hlt] at hi
  exact ⟨i, hlt, Option.some.inj hi⟩

/-- The slot of a thread after the statements. -/
def slotAfter (L : Launch) (g l : ℕ) (cs : List Stm) : ℕ :=
  cs.foldl (fun s c => L.slot (c.randExpr g).toNat s) (L.slot 0 l)

theorem slotAfter_append (g l : ℕ) (cs : List Stm) (c : Stm) :
    L.slotAfter g l (cs ++ [c]) = L.slot (c.randExpr g).toNat (L.slotAfter g l cs) :=
  List.foldl_append

theorem slotAfter_lt (hl : l < L.groupSize) (cs : List Stm) :
    L.slotAfter g l cs < L.groupSize := by
  induction cs using List.reverseRecOn with
  | nil => exact slot_lt 0 hl
  | append_singleton cs c ih =>
    rw [slotAfter_append]
    exact slot_lt _ ih

/-- **The threads of a group have different slots.** -/
theorem slotAfter_inj {l' : ℕ} (hl : l < L.groupSize) (hl' : l' < L.groupSize)
    (h : L.slotAfter g l cs = L.slotAfter g l' cs) : l = l' := by
  induction cs using List.reverseRecOn with
  | nil => exact slot_inj 0 hl hl' h
  | append_singleton cs c ih =>
    rw [slotAfter_append, slotAfter_append] at h
    exact ih (slot_inj _ (slotAfter_lt hl cs) (slotAfter_lt hl' cs) h)

/-- Every slot is some thread's. -/
theorem exists_slotAfter (g : ℕ) (cs : List Stm) (hs : s < L.groupSize) :
    ∃ l < L.groupSize, L.slotAfter g l cs = s := by
  induction cs using List.reverseRecOn generalizing s with
  | nil => exact exists_slot 0 hs
  | append_singleton cs c ih =>
    obtain ⟨s', hs', rfl⟩ := exists_slot (c.randExpr g).toNat hs
    obtain ⟨l, hl, rfl⟩ := ih hs'
    exact ⟨l, hl, slotAfter_append g l cs c⟩

theorem stays_iff (g : ℕ) (c : Stm) :
    L.Stays g c ↔ ∀ s < L.groupSize, L.slot (c.randExpr g).toNat s = s := by
  unfold Stays
  rw [row_get]
  constructor
  · intro h s hs
    have hget := slot_get (c.randExpr g).toNat hs
    rw [Option.some.inj h, List.getElem?_range hs] at hget
    exact (Option.some.inj hget).symm
  · intro h
    refine congrArg some (List.ext_getElem? fun s => ?_)
    by_cases hs : s < L.groupSize
    · rw [slot_get _ hs, h s hs, List.getElem?_range hs]
    · rw [List.getElem?_eq_none (by rw [row_length]; omega),
        List.getElem?_eq_none (by rw [List.length_range]; omega)]

/-! ## The source's `tid` is group and slot -/

/-- The places of a group in the launch. -/
theorem place_lt (hg : g < L.groups) (hs : s < L.groupSize) :
    g * L.groupSize + s < L.groups * L.groupSize := by
  have hle : (g + 1) * L.groupSize ≤ L.groups * L.groupSize := Nat.mul_le_mul_right _ hg
  rw [Nat.succ_mul] at hle
  omega

theorem itemize_slot (k : ℕ) (hk : k < 10) (hs : s < L.groupSize) :
    L.itemize k s = some (L.slot k s : ℤ) := by
  have hrow := row_get (L := L) k
  rw [Nat.mod_eq_of_lt hk] at hrow
  have hneg : ¬ ((k : ℤ) < 0 ∨ (s : ℤ) < 0) := by omega
  unfold itemize
  rw [if_neg hneg, Int.toNat_natCast, Int.toNat_natCast, hrow]
  show (do let p ← (L.row k)[s]?; pure (p : ℤ)) = _
  rw [slot_get k hs]
  rfl

theorem slot_mod (k s : ℕ) : L.slot (k % 10) s = L.slot k s := by
  unfold slot row
  rw [Nat.mod_mod]

theorem initialTid_eq (hg : g < L.groups) (hl : l < L.groupSize) :
    L.initialTid g l = some ((g * L.groupSize + L.slot 0 l : ℕ) : ℤ) := by
  have hplace := place_lt hg (slot_lt 0 hl)
  have htotal := L.total_lt
  have hg' : g ≤ g * L.groupSize := Nat.le_mul_of_pos_right g L.groupSize_pos
  have hsize : L.groupSize ≤ L.groups * L.groupSize := Nat.le_mul_of_pos_left _ (by omega)
  unfold initialTid
  rw [call_mul rfl rfl (by omega) (by omega) (by omega)]
  show (do let p ← L.itemize (0 : ℕ) l; _) = _
  rw [itemize_slot 0 (by omega) hl]
  have hadd : (⟨false, false, true, .w32⟩ : SafeOpFlags).call .add ((g * L.groupSize : ℕ) : ℤ)
      ((L.slot 0 l : ℕ) : ℤ) = some ((g * L.groupSize + L.slot 0 l : ℕ) : ℤ) :=
    call_add rfl rfl (by omega) (by omega) (by omega)
  exact hadd

theorem nextTid_eq (hg : g < L.groups) (hs : s < L.groupSize) (c : Stm) :
    L.nextTid g c ((g * L.groupSize + s : ℕ) : ℤ) =
      some ((g * L.groupSize + L.slot (c.randExpr g).toNat s : ℕ) : ℤ) := by
  have hplace := place_lt hg hs
  have hplace' := place_lt hg (slot_lt (c.randExpr g).toNat hs)
  have htotal := L.total_lt
  have hg' : g ≤ g * L.groupSize := Nat.le_mul_of_pos_right g L.groupSize_pos
  have hsize : L.groupSize ≤ L.groups * L.groupSize := Nat.le_mul_of_pos_left _ (by omega)
  have hmod : (g * L.groupSize + s) % L.groupSize = s := Nat.mul_add_mod_of_lt hs
  have hk : SafeOpFlags.call ⟨false, true, true, .w32⟩ .mod (c.randExpr g).toNat 10 =
      some (((c.randExpr g).toNat % 10 : ℕ) : ℤ) :=
    call_mod (y := 10) rfl rfl (c.randExpr g).isLt (by omega) (by omega)
  have hi : SafeOpFlags.call ⟨false, false, true, .w32⟩ .mod ((g * L.groupSize + s : ℕ) : ℤ)
      L.groupSize = some (s : ℤ) := by
    rw [call_mod rfl rfl (by omega) (by omega) L.groupSize_pos, hmod]
  have hitem := itemize_slot (L := L) ((c.randExpr g).toNat % 10) (by omega) hs
  rw [slot_mod] at hitem
  have hmul : SafeOpFlags.call ⟨false, false, true, .w32⟩ .mul g L.groupSize =
      some ((g * L.groupSize : ℕ) : ℤ) := call_mul rfl rfl (by omega) (by omega) (by omega)
  have hadd : SafeOpFlags.call ⟨false, false, true, .w32⟩ .add ((g * L.groupSize : ℕ) : ℤ)
      (L.slot (c.randExpr g).toNat s : ℤ) = some ((g * L.groupSize +
        L.slot (c.randExpr g).toNat s : ℕ) : ℤ) :=
    call_add rfl rfl (by omega) (by omega) (by omega)
  unfold nextTid
  simp only [hk, hi, hitem, hmul, hadd, Option.bind_eq_bind, Option.bind_some]

/-- **A thread's `tid`** is its group's first place and its slot. -/
theorem tidAfter_eq (hg : g < L.groups) (hl : l < L.groupSize) (cs : List Stm) :
    L.tidAfter g l cs = some ((g * L.groupSize + L.slotAfter g l cs : ℕ) : ℤ) := by
  induction cs using List.reverseRecOn with
  | nil =>
    unfold tidAfter
    rw [initialTid_eq hg hl]
    rfl
  | append_singleton cs c ih =>
    unfold tidAfter at ih ⊢
    rw [initialTid_eq hg hl] at ih ⊢
    simp only [Option.bind_eq_bind, Option.bind_some] at ih ⊢
    rw [List.foldlM_append, ih]
    simp only [Option.bind_eq_bind, Option.bind_some, List.foldlM_cons, List.foldlM_nil]
    rw [nextTid_eq hg (slotAfter_lt hl cs), slotAfter_append]
    rfl

/-- The element of a buffer a slot stands for. -/
def place (L : Launch) (g s : ℕ) : Buffer → Element
  | .g_comm_values => .global (g * L.groupSize + s)
  | .l_comm_values => .loc g s

theorem element_eq (hg : g < L.groups) (hs : s < L.groupSize) (b : Buffer) :
    L.element g ((g * L.groupSize + s : ℕ) : ℤ) b = some (L.place g s b) := by
  have hplace := place_lt hg hs
  have htotal := L.total_lt
  have hsize : L.groupSize ≤ L.groups * L.groupSize := Nat.le_mul_of_pos_left _ (by omega)
  cases b with
  | g_comm_values =>
    have hbound : (0 : ℤ) ≤ ((g * L.groupSize + s : ℕ) : ℤ) ∧
        ((g * L.groupSize + s : ℕ) : ℤ) < L.groups * L.groupSize := by
      constructor
      · omega
      · exact_mod_cast hplace
    exact if_pos hbound
  | l_comm_values =>
    have hmod : (g * L.groupSize + s) % L.groupSize = s := Nat.mul_add_mod_of_lt hs
    have hi : SafeOpFlags.call ⟨false, true, true, .w32⟩ .mod ((g * L.groupSize + s : ℕ) : ℤ)
        L.groupSize = some (s : ℤ) := by
      rw [call_mod rfl rfl (by omega) (by omega) L.groupSize_pos, hmod]
    have hbound : (0 : ℤ) ≤ s ∧ (s : ℤ) < L.groupSize := by omega
    unfold element
    simp only [hi, Option.bind_eq_bind, Option.bind_some]
    exact if_pos hbound

/-- **Different threads, different places.** -/
theorem place_inj {g' s' : ℕ} {b b' : Buffer} (hs : s < L.groupSize) (hs' : s' < L.groupSize)
    (h : L.place g s b = L.place g' s' b') : g = g' ∧ s = s' ∧ b = b' := by
  cases b with
  | g_comm_values =>
    cases b' with
    | l_comm_values => cases h
    | g_comm_values =>
      have heq : g * L.groupSize + s = g' * L.groupSize + s' := Element.global.inj h
      have hdiv : (g * L.groupSize + s) / L.groupSize = (g' * L.groupSize + s') / L.groupSize := by
        rw [heq]
      rw [Nat.add_comm, Nat.add_mul_div_right _ _ L.groupSize_pos, Nat.div_eq_of_lt hs,
        Nat.add_comm (g' * _), Nat.add_mul_div_right _ _ L.groupSize_pos,
        Nat.div_eq_of_lt hs'] at hdiv
      have hg : g = g' := by omega
      subst hg
      exact ⟨rfl, by omega, rfl⟩
  | l_comm_values =>
    cases b' with
    | g_comm_values => cases h
    | l_comm_values =>
      obtain ⟨rfl, rfl⟩ := Element.loc.inj h
      exact ⟨rfl, rfl, rfl⟩

theorem mapM_element (hg : g < L.groups) (hs : s < L.groupSize) (bs : List Buffer) :
    bs.mapM (L.element g ((g * L.groupSize + s : ℕ) : ℤ)) = some (bs.map (L.place g s)) := by
  induction bs with
  | nil => rfl
  | cons b bs ih =>
    rw [List.mapM_cons, element_eq hg hs, ih]
    rfl

/-- **What a thread accesses between two barriers**, by its slots. -/
theorem phase_zero (hg : g < L.groups) (hl : l < L.groupSize) (start : List Buffer) :
    L.phase start cs g l 0 = some (start.map (L.place g (L.slotAfter g l []))) := by
  unfold phase
  rw [tidAfter_eq hg hl]
  exact mapM_element hg (slotAfter_lt hl _) start

theorem phase_succ (hg : g < L.groups) (hl : l < L.groupSize) (start : List Buffer) {k : ℕ}
    (hc : cs[k]? = some c) :
    L.phase start cs g l (k + 1) =
      some (c.uses.map (L.place g (L.slotAfter g l (cs.take k))) ++
        c.body.map (L.place g (L.slot (c.randExpr g).toNat (L.slotAfter g l (cs.take k))))) := by
  have htake : cs.take (k + 1) = cs.take k ++ [c] := by
    rw [List.take_add_one, hc]
    rfl
  rw [phase, hc, tidAfter_eq hg hl, tidAfter_eq hg hl, htake, slotAfter_append]
  simp only [Option.bind_eq_bind, Option.bind_some]
  rw [mapM_element hg (slotAfter_lt hl _), mapM_element hg (slot_lt _ (slotAfter_lt hl _))]
  rfl

/-! ## Races -/

/-- Threads of one group that a phase finds at different slots. -/
theorem disjoint_of_quiet {l' : ℕ} (hl : l < L.groupSize) (hl' : l' < L.groupSize) (hne : l ≠ l')
    (hq : (∃ b ∈ c.uses, b ∈ c.body) → L.Stays g c)
    (ds : List Stm) :
    List.Disjoint
      (c.uses.map (L.place g (L.slotAfter g l ds)) ++
        c.body.map (L.place g (L.slot (c.randExpr g).toNat (L.slotAfter g l ds))))
      (c.uses.map (L.place g (L.slotAfter g l' ds)) ++
        c.body.map (L.place g (L.slot (c.randExpr g).toNat (L.slotAfter g l' ds)))) := by
  have hs := slotAfter_lt (g := g) hl ds
  have hs' := slotAfter_lt (g := g) hl' ds
  have hold : L.slotAfter g l ds ≠ L.slotAfter g l' ds := fun h => hne (slotAfter_inj hl hl' h)
  have hnew : L.slot (c.randExpr g).toNat (L.slotAfter g l ds) ≠
      L.slot (c.randExpr g).toNat (L.slotAfter g l' ds) := fun h => hold (slot_inj _ hs hs' h)
  -- an element used at an old slot and accessed at a new one
  have hcross : ∀ b ∈ c.uses, ∀ b' ∈ c.body, ∀ {l l' : ℕ}, l < L.groupSize → l' < L.groupSize →
      l ≠ l' → L.place g (L.slotAfter g l ds) b ≠
        L.place g (L.slot (c.randExpr g).toNat (L.slotAfter g l' ds)) b' := by
    intro b hb b' hb' l l' hl hl' hne heq
    have hlt := slotAfter_lt (g := g) hl' ds
    obtain ⟨-, hslot, rfl⟩ := place_inj (slotAfter_lt hl ds) (slot_lt _ hlt) heq
    rw [(stays_iff g c).mp (hq ⟨b, hb, hb'⟩) _ hlt] at hslot
    exact hne (slotAfter_inj hl hl' hslot)
  intro x hx hx'
  rcases List.mem_append.mp hx with hx | hx <;> obtain ⟨b, hb, rfl⟩ := List.mem_map.mp hx <;>
    rcases List.mem_append.mp hx' with hx' | hx' <;> obtain ⟨b', hb', heq⟩ := List.mem_map.mp hx'
  · exact hold (place_inj hs' hs heq).2.1.symm
  · exact hcross b hb b' hb' hl hl' hne heq.symm
  · exact hcross b' hb' b hb hl' hl (Ne.symm hne) heq
  · exact hnew (place_inj (slot_lt _ hs') (slot_lt _ hs) heq).2.1.symm

/-- What a thread accesses is in its group. -/
theorem mem_phase {k : ℕ} {start : List Buffer} {xs : List Element} {x : Element}
    (hg : g < L.groups) (hl : l < L.groupSize) (h : L.phase start cs g l k = some xs)
    (hx : x ∈ xs) : ∃ s < L.groupSize, ∃ b, x = L.place g s b := by
  cases k with
  | zero =>
    rw [phase_zero hg hl] at h
    cases h
    obtain ⟨b, -, rfl⟩ := List.mem_map.mp hx
    exact ⟨_, slotAfter_lt hl [], b, rfl⟩
  | succ k =>
    cases hc : cs[k]? with
    | none =>
      rw [phase, hc] at h
      cases h
    | some c =>
      rw [phase_succ hg hl start hc] at h
      cases h
      rcases List.mem_append.mp hx with hx | hx
      · obtain ⟨b, -, rfl⟩ := List.mem_map.mp hx
        exact ⟨_, slotAfter_lt hl _, b, rfl⟩
      · obtain ⟨b, -, rfl⟩ := List.mem_map.mp hx
        exact ⟨_, slot_lt _ (slotAfter_lt hl _), b, rfl⟩

/-- **Quiet statements race nowhere.** -/
theorem Quiet.raceFree {start : List Buffer} (hq : L.Quiet cs) : L.RaceFree start cs := by
  refine ⟨?_, ?_, ?_, ?_⟩
  · rintro ⟨g, l⟩ ⟨hg, hl⟩ n -
    have hs := slotAfter_lt (g := g) hl (cs.take n)
    dsimp only at hs hg hl ⊢
    refine ⟨_, tidAfter_eq hg hl _, ?_, ?_⟩
    · rw [Nat.cast_add, Nat.cast_mul]
      omega
    · rw [Nat.cast_add, Nat.cast_mul, Int.add_mul]
      omega
  · rintro ⟨g, l⟩ ⟨g', l'⟩ ⟨hg, hl⟩ ⟨-, hl'⟩ hgroup hne n - heq
    obtain rfl : g = g' := hgroup
    dsimp only at hg hl hl' heq
    rw [tidAfter_eq hg hl, tidAfter_eq hg hl'] at heq
    have hslot : L.slotAfter g l (cs.take n) = L.slotAfter g l' (cs.take n) := by
      have := Int.natCast_inj.mp (Option.some.inj heq)
      omega
    exact hne (Prod.ext rfl (slotAfter_inj hl hl' hslot))
  · rintro ⟨g, l⟩ ⟨hg, hl⟩ k hk
    cases k with
    | zero => rw [phase_zero hg hl]; rfl
    | succ k =>
      have hc : cs[k]? = some cs[k] := List.getElem?_eq_getElem hk
      rw [phase_succ hg hl start hc]
      rfl
  · rintro ⟨g, l⟩ ⟨g', l'⟩ ⟨hg, hl⟩ ⟨hg', hl'⟩ hne k k' hsame xs xs' hxs hxs'
    -- within a group the slots differ; between groups the elements do, whatever the phase
    by_cases hgroup : g = g'
    · subst hgroup
      obtain rfl : k = k' := hsame rfl
      have hll : l ≠ l' := fun h => hne (Prod.ext rfl h)
      cases k with
      | zero =>
        rw [phase_zero hg hl] at hxs
        rw [phase_zero hg hl'] at hxs'
        cases hxs
        cases hxs'
        intro x hx hx'
        obtain ⟨b, -, rfl⟩ := List.mem_map.mp hx
        obtain ⟨b', -, heq⟩ := List.mem_map.mp hx'
        have hslot := (place_inj (slotAfter_lt hl' []) (slotAfter_lt hl []) heq).2.1
        exact hll (slotAfter_inj hl hl' hslot.symm)
      | succ k =>
        cases hc : cs[k]? with
        | none =>
          rw [phase, hc] at hxs
          cases hxs
        | some c =>
          rw [phase_succ hg hl start hc] at hxs
          rw [phase_succ hg hl' start hc] at hxs'
          cases hxs
          cases hxs'
          exact disjoint_of_quiet hl hl' hll (hq c (List.mem_of_getElem? hc) g hg) _
    · intro x hx hx'
      obtain ⟨s, hs, b, rfl⟩ := mem_phase hg hl hxs hx
      obtain ⟨s', hs', b', heq⟩ := mem_phase hg' hl' hxs' hx'
      exact hgroup (place_inj hs hs' heq).1

/-- **A statement that moves a slot and is not quiet races**: the thread
that had the slot uses its element while the one that has it now accesses
it. -/
theorem RaceFree.quiet {start : List Buffer} (h : L.RaceFree start cs) : L.Quiet cs := by
  rintro c hmem g hg ⟨b, hb, hb'⟩
  rw [stays_iff]
  intro s hs
  by_contra hmoved
  obtain ⟨k, hc⟩ := List.mem_iff_getElem?.mp hmem
  obtain ⟨l, hl, hold⟩ := exists_slotAfter g (cs.take k) hs
  obtain ⟨s', hs', hnew⟩ := exists_slot (c.randExpr g).toNat hs
  obtain ⟨l', hl', rfl⟩ := exists_slotAfter g (cs.take k) hs'
  have hne : l ≠ l' := by
    rintro rfl
    rw [hold] at hnew
    exact hmoved hnew
  have hdisj := h.apart (g, l) (g, l') ⟨hg, hl⟩ ⟨hg, hl'⟩
    (fun he => hne (congrArg Prod.snd he)) (k + 1) (k + 1) (fun _ => rfl) _ _
    (phase_succ hg hl start hc) (phase_succ hg hl' start hc)
  refine hdisj (List.mem_append_left _ (List.mem_map.mpr ⟨b, hb, rfl⟩))
    (List.mem_append_right _ (List.mem_map.mpr ⟨b, hb', ?_⟩))
  rw [hnew, hold]

end Launch

/-- **Inter-thread communication is race free exactly where its statements are
quiet.** `rand_expr` is evaluated behind the barrier but with the old `tid`, so where
it accesses a buffer that is accessed again before the next barrier, the statement may
move no slot. -/
theorem comm_raceFree_iff (L : Launch) (start : List Buffer) (cs : List Stm) :
    L.RaceFree start cs ↔ L.Quiet cs :=
  ⟨Launch.RaceFree.quiet, Launch.Quiet.raceFree⟩

/-- Two threads, swapped by every permutation. -/
def swapLaunch : Launch where
  groups := 1
  groupSize := 2
  permutations := List.replicate 10 [1, 0]
  groupSize_pos := by omega
  total_lt := by omega
  length_eq := rfl
  perm row h := by
    obtain rfl := List.eq_of_mem_replicate h
    exact List.Perm.swap 0 1 []

/-- `tid = … permutations[g_comm_values[tid] % 10][tid % 2]`, and then
`g_comm_values[tid] = …`: a thread reads where another one writes. -/
theorem not_forall_raceFree :
    ¬ ∀ (L : Launch) (start : List Buffer) (cs : List Stm), L.RaceFree start cs := by
  intro hall
  have hrace := hall swapLaunch [] [⟨fun _ => 1, [.g_comm_values], [.g_comm_values]⟩]
  have hdisj := hrace.apart (0, 0) (0, 1) ⟨by decide, by decide⟩ ⟨by decide, by decide⟩
    (by decide) 1 1 (fun _ => rfl)
    [.global 1, .global 0] [.global 0, .global 1] (by decide +kernel) (by decide +kernel)
  exact hdisj List.mem_cons_self (by decide)

end Comm

end CLSmith
