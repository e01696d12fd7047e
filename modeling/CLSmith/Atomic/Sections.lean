import CLSmith.Common.Imp
import CLSmith.Common.System
import CLSmith.Random
import Mathlib.Data.BitVec
/-!
# Atomic sections

An atomic `StatementIf` tests `atomic_inc(&counter) == value`, and the
thread whose test holds runs the true block, at the end of which the block's
variables are summed into the special value of its counter. Here a program
is statements on private variables whose marks are the sections, named by
their `ExpressionAtomicAccess`; a section's body has no marks of its own,
for no atomic condition is built in an atomic context.
-/

namespace CLSmith

namespace Atomic

open Common Imp

/-- The words of the atomic buffers. -/
abbrev Word := BitVec 32

/-- `AtomicMemAccess`. -/
inductive AtomicMemAccess
  | kGlobal | kLocal
deriving DecidableEq

/-- `ExpressionAtomicAccess`: the counter a section tests. A group has its
own part of the global buffers, so the constant is the place in either. -/
structure ExpressionAtomicAccess where
  constant : ℕ
  mem : AtomicMemAccess
deriving DecidableEq

/-! ## Counters -/

/-- `ExpressionAtomic::make_random` over the free counters: one of them and
the ones left, or nothing where none is. The expression is `atomic_inc`, for
a coin that falls a hundred times in a hundred chooses it. -/
def makeRandom (freeCounters : List ℕ) :
    Gen (Option (ExpressionAtomicAccess × List ℕ)) :=
  match freeCounters with
  | [] => pure none
  | _ => do
    let i ← rndUpto freeCounters.length fun _ => false
    let randIndex ← Gen.ofOption freeCounters[i]?
    let mem ← rndUpto 2 fun _ => false
    let _ ← rndFlipcoin 100
    pure (some (⟨randIndex, if mem = 0 then .kGlobal else .kLocal⟩,
      freeCounters.filter (· ≠ randIndex)))

/-- The sections of a program, one counter after another. -/
def makeSections : ℕ → List ℕ → Gen (List ExpressionAtomicAccess)
  | 0, _ => pure []
  | m + 1, free => do
    match ← makeRandom free with
    | none => pure []
    | some (a, free') => do
      let as ← makeSections m free'
      pure (a :: as)

theorem makeRandom_spec {free free' : List ℕ} {a : ExpressionAtomicAccess} {t t' : Tape}
    (h : makeRandom free t = some (some (a, free'), t')) :
    a.constant ∈ free ∧ free' = free.filter (· ≠ a.constant) := by
  unfold makeRandom at h
  split at h
  · simp at h
  · obtain ⟨i, t₁, -, h⟩ := Gen.bind_eq_some.mp h
    obtain ⟨r, t₂, hr, h⟩ := Gen.bind_eq_some.mp h
    obtain ⟨mem, t₃, -, h⟩ := Gen.bind_eq_some.mp h
    obtain ⟨b, t₄, -, h⟩ := Gen.bind_eq_some.mp h
    obtain ⟨hget, -⟩ := Gen.ofOption_eq_some.mp hr
    simp only [Gen.pure_apply, Option.some.injEq, Prod.mk.injEq] at h
    obtain ⟨⟨rfl, rfl⟩, -⟩ := h
    exact ⟨List.mem_of_getElem? hget, rfl⟩

/-- **No two sections share a counter**: each is taken off the free ones. -/
theorem makeSections_nodup {m : ℕ} {free : List ℕ} {as : List ExpressionAtomicAccess}
    {t t' : Tape} (h : makeSections m free t = some (as, t')) :
    (as.map ExpressionAtomicAccess.constant).Nodup ∧ ∀ a ∈ as, a.constant ∈ free := by
  induction m generalizing free as t with
  | zero =>
    cases h
    exact ⟨List.nodup_nil, fun a ha => nomatch ha⟩
  | succ m ih =>
    obtain ⟨r, t₁, hr, h⟩ := Gen.bind_eq_some.mp h
    cases r with
    | none =>
      cases h
      exact ⟨List.nodup_nil, fun a ha => nomatch ha⟩
    | some p =>
      obtain ⟨a, free'⟩ := p
      obtain ⟨hmem, rfl⟩ := makeRandom_spec hr
      obtain ⟨bs, t₂, hbs, h⟩ := Gen.bind_eq_some.mp h
      cases h
      obtain ⟨hnodup, hfree⟩ := ih hbs
      refine ⟨List.nodup_cons.mpr ⟨?_, hnodup⟩, ?_⟩
      · intro ha
        obtain ⟨b, hb, he⟩ := List.mem_map.mp ha
        have hne := (List.mem_filter.mp (hfree b hb)).2
        simp [he] at hne
      · intro b hb
        rcases List.mem_cons.mp hb with rfl | hb
        · exact hmem
        · exact (List.mem_filter.mp (hfree b hb)).1

/-! ## Programs -/

variable {V : Type} [DecidableEq V]

/-- A variable of a true block: an array of `size` elements, a scalar one of
one element. -/
structure Local (V : Type) extends Decl V where
  size : ℕ
  pointer : Bool

/-- **A section**: the value its counter is compared with, the variables of
its true block and its statements. -/
structure Section (V : Type) where
  value : ℕ
  locals : List (Local V)
  body : Stmt V Empty

namespace Section

variable (S : Section V)

/-- The variables declared in the true block or in a block nested in it. -/
def own : List V := S.locals.map (·.var) ++ S.body.declares

/-- Entering the true block: its variables get their initial contents; those
of the nested blocks, which nothing reads before their own block does the
same, are cleared. -/
def enter (ρ : Env V) : Env V :=
  Env.declare (fun x => if x ∈ S.own then fun _ => 0 else ρ x) (S.locals.map Local.toDecl)

/-- `GenSpecialVals`: the sum `result` of the elements of the variables of
the true block, but for pointers. -/
def result (ρ : Env V) : Word :=
  ((S.locals.filter fun l => !l.pointer).map fun l =>
    ((List.range l.size).map fun j => BitVec.ofInt 32 (ρ l.var j)).sum).sum

end Section

/-- **A program with atomic sections.** A counter names one section. Its
variables are visible only in it, and it writes no others. -/
structure Program (V : Type) [DecidableEq V] where
  blocksNo : ℕ
  main : Stmt V ExpressionAtomicAccess
  sections : ExpressionAtomicAccess → Section V
  writesOwn : ∀ a, ∀ x ∈ (sections a).body.assigns, x ∈ (sections a).own
  scopedMain : ∀ a, ∀ x ∈ (sections a).own,
    x ∉ main.reads ∧ x ∉ main.assigns ∧ x ∉ main.declares
  scopedBody : ∀ a b, ∀ x ∈ (sections a).own, x ∈ (sections b).body.reads →
    x ∈ (sections b).own

/-- A thread: its variables, the section it is in with what is left of it,
and what is left of the program. -/
structure Thread (V : Type) where
  env : Env V
  inside : Option (ExpressionAtomicAccess × List (Stmt V Empty))
  left : List (Stmt V ExpressionAtomicAccess)

/-- A state of the group: the counters, the special values, the threads, and
the history: the evaluations of each test and the entries. -/
structure State (V : Type) where
  atomicInput : ExpressionAtomicAccess → Word
  specialValues : ExpressionAtomicAccess → Word
  thread : ℕ → Thread V
  evals : ExpressionAtomicAccess → ℕ
  entered : List (ℕ × ExpressionAtomicAccess)

namespace State

def setThread (g : State V) (t : ℕ) (th : Thread V) : State V :=
  { g with thread := Function.update g.thread t th }

/-- `atomic_inc` on the counter of a section. -/
def atomicInc (g : State V) (a : ExpressionAtomicAccess) : State V :=
  { g with
    atomicInput := Function.update g.atomicInput a (g.atomicInput a + 1)
    evals := Function.update g.evals a (g.evals a + 1) }

/-- `atomic_add` on the special value of a section. -/
def atomicAdd (g : State V) (a : ExpressionAtomicAccess) (v : Word) : State V :=
  { g with specialValues := Function.update g.specialValues a (g.specialValues a + v) }

def enter (g : State V) (t : ℕ) (a : ExpressionAtomicAccess) : State V :=
  { g with entered := g.entered ++ [(t, a)] }

/-- The entries of a section. -/
def entries (g : State V) (a : ExpressionAtomicAccess) : List (ℕ × ExpressionAtomicAccess) :=
  g.entered.filter fun e => e.2 = a

/-- No counter has come round. -/
def Bounded (g : State V) : Prop := ∀ a, g.evals a < 2 ^ 32

end State

/-- **A launch** of a program on a group: its size and the private state all
its threads start in. -/
structure Launch (V : Type) [DecidableEq V] where
  program : Program V
  size : ℕ
  start : Env V

namespace Launch

variable (L : Launch V)

/-- One step of a thread. -/
def stepThread (g : State V) (t : ℕ) : Option (State V) :=
  match (g.thread t).inside with
  | some (a, []) =>
    some ((g.atomicAdd a ((L.program.sections a).result (g.thread t).env)).setThread t
      { g.thread t with inside := none })
  | some (a, k) =>
    (step ((g.thread t).env, k)).map fun c =>
      g.setThread t { g.thread t with env := c.1, inside := some (a, c.2) }
  | none =>
    match (g.thread t).left with
    | .mark a :: k =>
      if g.atomicInput a = BitVec.ofNat 32 (L.program.sections a).value then
        some (((g.atomicInc a).enter t a).setThread t
          ⟨(L.program.sections a).enter (g.thread t).env,
            some (a, [(L.program.sections a).body]), k⟩)
      else some ((g.atomicInc a).setThread t { g.thread t with left := k })
    | k =>
      (step ((g.thread t).env, k)).map fun c =>
        g.setThread t { g.thread t with env := c.1, left := c.2 }

def initial : State V where
  atomicInput _ := 0
  specialValues _ := 0
  thread _ := ⟨L.start, none, [L.program.main]⟩
  evals _ := 0
  entered := []

/-- The runs of the group. -/
def system : System (State V) where
  Init g := g = L.initial
  Step g g' := ∃ t < L.size, L.stepThread g t = some g'

/-- Every thread is through. -/
def Finished (g : State V) : Prop :=
  ∀ t < L.size, (g.thread t).inside = none ∧ (g.thread t).left = []

instance (g : State V) : Decidable (L.Finished g) :=
  decidable_of_iff
    (∀ t < L.size, (g.thread t).inside.isNone = true ∧ (g.thread t).left.isEmpty = true)
    (by simp only [Finished, Option.isNone_iff_eq_none, List.isEmpty_iff])

/-- `OutputHashing`: the special values a group prints. -/
def hashing (g : State V) : List Word :=
  ((List.range L.program.blocksNo).map fun i => g.specialValues ⟨i, .kGlobal⟩) ++
    (List.range L.program.blocksNo).map fun i => g.specialValues ⟨i, .kLocal⟩

/-- **What atomic sections are for**: each is entered at most once, and what
a group prints is the same whatever the interleaving. -/
def ScheduleFree : Prop :=
  (∀ g, L.system.Reachable g → g.Bounded → ∀ a, (g.entries a).length ≤ 1) ∧
  ∀ g g', L.system.Reachable g → L.system.Reachable g' → L.Finished g → L.Finished g' →
    g.Bounded → g'.Bounded → L.hashing g = L.hashing g'

/-- The thread on its own that every thread follows, off its sections. -/
def solo : Solo V ExpressionAtomicAccess := ⟨L.start, [L.program.main], []⟩

/-- **Steady sections**: wherever a thread tests a section, the outer
variables the section reads have the contents they have wherever else a
thread tests it. -/
def Steady : Prop :=
  ∀ a u u' k k', Solo.Runs L.solo u → Solo.Runs L.solo u' → u.left = .mark a :: k →
    u'.left = .mark a :: k' →
    ∀ x ∈ (L.program.sections a).body.reads, x ∉ (L.program.sections a).own → u.env x = u'.env x

end Launch

end Atomic

end CLSmith
