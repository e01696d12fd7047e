import CLSmith.MessagePassing.Constraints
/-!
# The code of the message nodes

What the constraints become: for each node the loop `MakeWait`, `MakeUpdate`
and `MakeSignal` build and `Output` prints, for each thread the loop
`OutputEndChecks` prints. A node that is in no ordering prints nothing, and
neither do the end checks of a thread without ordered nodes.

An assignment that sets a flag carries the node whose signal it is, which
the printed code does not have: in the node's own loop that node, in an
`if` of another loop the earlier node it unlocks.
-/

namespace CLSmith

namespace MessagePassing

/-- **A statement of one of the loops**, with the flags its test reads. A test reads
its flags one after the other, and other threads may write in between. -/
inductive Instr
  /-- `mem_fence(CLK_LOCAL_MEM_FENCE);` -/
  | fence
  /-- `if (f >= v && ...) break;` -/
  | breakIf (checks : List Constraint)
  /-- `if (f == v && ...) g = w;` -/
  | unlockIf (node : ℕ) (checks : List Constraint) (signal : Constraint)
  /-- `if (!(f == v && ...)) continue;` -/
  | continueUnless (checks : List Constraint)
  /-- The assignments to the message's fields. -/
  | update (node : ℕ)
  /-- `g = w;` -/
  | signal (node : ℕ) (signal : Constraint)
  /-- `break;` -/
  | breakLoop
deriving DecidableEq

/-- The flag values a statement tests. -/
def Instr.tests : Instr → List Constraint
  | breakIf checks => checks
  | unlockIf _ checks _ => checks
  | continueUnless checks => checks
  | _ => []

/-- What the loop over the ordering leaves behind: `unlock_map`, the waits
made, and `end_checks_`. A lock comes with the node it is of. -/
structure Code where
  unlockMap : ℕ → List (ℕ × Lock) := fun _ => []
  waits : ℕ → Option (List (ℕ × Lock) × Lock) := fun _ => none
  endChecks : ℕ → List (ℕ × Lock) := fun _ => []

section Build

variable (nodes : List ℕ)

/-- The nodes sequenced after `node`, from `GetsbIterator(node) + 1` on. -/
def later (node : ℕ) : List ℕ :=
  ((sbGraph nodes (tidOf nodes node)).dropWhile fun m => m ≠ node).tail

/-- **What the loop does with the lock of a node**: the node is given the
unlocks collected for it, and the lock goes to the nodes sequenced after
it and to the end checks of its thread. -/
def Code.place (c : Code) (x : ℕ × Lock) : Code where
  unlockMap m := if m ∈ later nodes x.1 then c.unlockMap m ++ [x] else c.unlockMap m
  waits := Function.update c.waits x.1 (some (c.unlockMap x.1, x.2))
  endChecks := Function.update c.endChecks (tidOf nodes x.1)
    (c.endChecks (tidOf nodes x.1) ++ [x])

def makeCode (locks : List (ℕ × Lock)) : Code := locks.foldl (Code.place nodes) {}

end Build

section Output

variable (addr : Flag → ℕ)

/-- The `if`s that unlock earlier nodes. -/
def unlockIfs (unlocks : List (ℕ × Lock)) : List Instr :=
  unlocks.map fun x => .unlockIf x.1 x.2.checks x.2.signal

/-- The checks of an early exit: the node's checks and its signal. -/
def earlyBreak (lock : Lock) : List Constraint := setInsert addr lock.signal lock.checks

def makeWait (unlocks : List (ℕ × Lock)) (lock : Lock) : List Instr :=
  [.fence, .breakIf (earlyBreak addr lock)] ++ unlockIfs unlocks ++
    [.continueUnless lock.checks]

def makeUpdate (node : ℕ) : List Instr := [.update node]

def makeSignal (node : ℕ) (signal : Constraint) : List Instr :=
  [.signal node signal, .fence, .breakLoop]

/-- **`StatementMessage::Output`**: the body of the node's loop. A node without a
wait, an update and a signal prints nothing. -/
def nodeBody (c : Code) (node : ℕ) : List Instr :=
  match c.waits node with
  | none => []
  | some (unlocks, lock) =>
    makeWait addr unlocks lock ++ makeUpdate node ++ makeSignal node lock.signal

/-- **`OutputEndChecks`**: the body of the thread's last loop. It unlocks what is left
of the thread's nodes, and breaks when the last of them is through. -/
def endBody (c : Code) (tid : ℕ) : List Instr :=
  match (c.endChecks tid).getLast? with
  | none => []
  | some last => [.fence] ++ unlockIfs (c.endChecks tid) ++
      [.fence, .breakIf (earlyBreak addr last.2)]

end Output

/-! ## What the loop leaves behind -/

section BuildSpec

variable {nodes : List ℕ} {locks : List (ℕ × Lock)} {x : ℕ × Lock} {m n t : ℕ}

/-- In a list in order, what stands behind an element is what is larger. -/
theorem mem_tail_dropWhile {l : List ℕ} (hl : l.Pairwise (· < ·)) (hn : n ∈ l) :
    m ∈ (l.dropWhile fun a => a ≠ n).tail ↔ m ∈ l ∧ n < m := by
  induction l with
  | nil => cases hn
  | cons a l ih =>
    obtain ⟨ha, hl⟩ := List.pairwise_cons.mp hl
    rcases eq_or_ne a n with rfl | hne
    · rw [List.dropWhile_cons_of_neg (by simp), List.tail_cons]
      constructor
      · exact fun h => ⟨List.mem_cons_of_mem _ h, ha m h⟩
      · rintro ⟨hm, hlt⟩
        exact (List.mem_cons.mp hm).resolve_left (by omega)
    · have hnl : n ∈ l := (List.mem_cons.mp hn).resolve_left hne.symm
      rw [List.dropWhile_cons_of_pos (by simpa using hne), ih hl hnl, List.mem_cons]
      constructor
      · exact fun h => ⟨.inr h.1, h.2⟩
      · rintro ⟨rfl | hm, hlt⟩
        · have := ha n hnl
          omega
        · exact ⟨hm, hlt⟩

theorem mem_sbGraph : n ∈ sbGraph nodes t ↔ n < nodes.length ∧ tidOf nodes n = t := by
  simp [sbGraph]

/-- A node's later nodes are those of its thread registered after it. -/
theorem mem_later (hn : n < nodes.length) :
    m ∈ later nodes n ↔ m < nodes.length ∧ tidOf nodes m = tidOf nodes n ∧ n < m := by
  have hsorted : (sbGraph nodes (tidOf nodes n)).Pairwise (· < ·) :=
    List.pairwise_lt_range.filter _
  unfold later
  rw [mem_tail_dropWhile hsorted (mem_sbGraph.mpr ⟨hn, rfl⟩), mem_sbGraph, and_assoc]

theorem place_waits_self {c : Code} :
    (c.place nodes x).waits x.1 = some (c.unlockMap x.1, x.2) := Function.update_self _ _ _

theorem place_waits_of_ne {c : Code} (h : n ≠ x.1) : (c.place nodes x).waits n = c.waits n :=
  Function.update_of_ne h _ _

theorem makeCode_concat :
    makeCode nodes (locks ++ [x]) = (makeCode nodes locks).place nodes x := by
  simp [makeCode]

/-- The unlocks collected for a node are the locks of the nodes before it. -/
theorem mem_unlockMap : x ∈ (makeCode nodes locks).unlockMap n ↔
    x ∈ locks ∧ n ∈ later nodes x.1 := by
  induction locks using List.reverseRecOn with
  | nil => simp [makeCode]
  | append_singleton locks y ih =>
    rw [makeCode_concat, Code.place]
    simp only [List.mem_append, List.mem_singleton]
    split
    · next h =>
      rw [List.mem_append, ih, List.mem_singleton]
      constructor
      · rintro (h' | rfl)
        · exact ⟨.inl h'.1, h'.2⟩
        · exact ⟨.inr rfl, h⟩
      · rintro ⟨h' | rfl, h''⟩
        · exact .inl ⟨h', h''⟩
        · exact .inr rfl
    · next h =>
      rw [ih]
      constructor
      · exact fun h' => ⟨.inl h'.1, h'.2⟩
      · rintro ⟨h' | rfl, h''⟩
        · exact ⟨h', h''⟩
        · exact absurd h'' h

/-- The end checks of a thread are the locks of its nodes, in their order. -/
theorem endChecks_eq :
    (makeCode nodes locks).endChecks t = locks.filter fun x => tidOf nodes x.1 = t := by
  induction locks using List.reverseRecOn with
  | nil => rfl
  | append_singleton locks y ih =>
    rw [makeCode_concat, List.filter_append, ← ih, Code.place]
    rcases eq_or_ne (tidOf nodes y.1) t with rfl | hne
    · simp
    · simp [Function.update_of_ne hne.symm, hne]

/-- A node has no wait exactly when it has no lock. -/
theorem waits_eq_none : (makeCode nodes locks).waits n = none ↔ ∀ x ∈ locks, x.1 ≠ n := by
  induction locks using List.reverseRecOn with
  | nil => simp [makeCode]
  | append_singleton locks y ih =>
    rw [makeCode_concat]
    rcases eq_or_ne n y.1 with rfl | hne
    · rw [place_waits_self]
      simp only [reduceCtorEq, false_iff]
      exact fun h => h y (by simp) rfl
    · rw [place_waits_of_ne hne, ih]
      constructor
      · intro h x hx
        rcases List.mem_append.mp hx with hx | hx
        · exact h x hx
        · obtain rfl : x = y := by simpa using hx
          exact hne.symm
      · exact fun h x hx => h x (List.mem_append_left _ hx)

/-- **A node's wait** has its lock, and unlocks the locks made before it of
nodes it is sequenced after. -/
theorem waits_eq_some {unlocks : List (ℕ × Lock)} {lock : Lock}
    (h : (makeCode nodes locks).waits n = some (unlocks, lock)) :
    ∃ L₁ L₂, locks = L₁ ++ (n, lock) :: L₂ ∧ unlocks = (makeCode nodes L₁).unlockMap n := by
  induction locks using List.reverseRecOn with
  | nil => simp [makeCode] at h
  | append_singleton locks y ih =>
    rw [makeCode_concat] at h
    rcases eq_or_ne n y.1 with rfl | hne
    · rw [place_waits_self] at h
      cases h
      exact ⟨locks, [], by simp, rfl⟩
    · rw [place_waits_of_ne hne] at h
      obtain ⟨L₁, L₂, rfl, hu⟩ := ih h
      exact ⟨L₁, L₂ ++ [y], by simp, hu⟩

end BuildSpec

end MessagePassing

end CLSmith
