import CLSmith.Common.System
import CLSmith.MessagePassing.Emit
/-!
# A group running the message nodes

The threads of a work group, each with what it has left of its program,
over the four flag words. A step is one thread's: it reads one flag, or
does one thing, and the memory is sequentially consistent. A work-group
barrier is passed once every thread has come to it.

The log records each update of the message and each setting of a flag,
with the thread that made it.
-/

namespace CLSmith

namespace MessagePassing

open Common

/-- A statement of a thread's program, as far as the messages see it. -/
inductive Stmt
  | visit (node : ℕ)
  | barrier
  | endChecks
deriving DecidableEq

/-- **A kernel with one message**: the registered nodes, an ordering
`CreateOrdering` draws for them, and the program of each thread before its
end checks. The threads of the nodes are threads of the group. -/
structure Kernel where
  size : ℕ
  nodes : List ℕ
  tid_lt : ∀ n < nodes.length, tidOf nodes n < size
  order : List Entry
  generated : ∃ t t', createOrdering nodes t = some (order, t')
  addr : Flag → ℕ
  body : ℕ → List Stmt
  body_end : ∀ t, Stmt.endChecks ∉ body t

/-- Where a thread is in a loop: the statements up to the end of the loop's
body, and the flag values of the first one's test not read yet. -/
abbrev Position := List Instr × List Constraint

/-- At the first of some statements. -/
def enter (is : List Instr) : Position := (is, (is.head?.map Instr.tests).getD [])

inductive Effect
  | none
  | update (node : ℕ)
  | signal (node : ℕ) (signal : Constraint)
deriving DecidableEq

/-- What a step in a loop does, and where it leads; `none` is out of the
loop. -/
structure Outcome where
  effect : Effect
  next : Option Position
deriving DecidableEq

/-- **One step in a loop** with the given body. Each check of a test is a step of its
own, so the flags it reads need not have their values at one time. -/
def stepLoop (flags : Flag → ℕ) (body : List Instr) : Position → Outcome
  | ([], _) => ⟨.none, some (enter body)⟩
  | (.fence :: is, _) => ⟨.none, some (enter is)⟩
  | (.breakIf _ :: _, []) => ⟨.none, none⟩
  | (.breakIf cs :: is, c :: left) =>
    ⟨.none, some (if c.2 ≤ flags c.1 then (.breakIf cs :: is, left) else enter is)⟩
  | (.unlockIf n _ sig :: is, []) => ⟨.signal n sig, some (enter is)⟩
  | (.unlockIf n cs sig :: is, c :: left) =>
    ⟨.none, some (if flags c.1 = c.2 then (.unlockIf n cs sig :: is, left) else enter is)⟩
  | (.continueUnless _ :: is, []) => ⟨.none, some (enter is)⟩
  | (.continueUnless cs :: is, c :: left) =>
    ⟨.none, some (if flags c.1 = c.2 then (.continueUnless cs :: is, left) else enter body)⟩
  | (.update n :: is, _) => ⟨.update n, some (enter is)⟩
  | (.signal n c :: is, _) => ⟨.signal n c, some (enter is)⟩
  | (.breakLoop :: _, _) => ⟨.none, none⟩

/-- A thread: what it has left, its place in the loop of the first
statement of that, and how many barriers it has passed. -/
structure Thread where
  stmts : List Stmt
  loop : Option Position
  passed : ℕ

inductive Event
  | update (node : ℕ)
  | signal (node : ℕ)
deriving DecidableEq

structure Group where
  flags : Flag → ℕ
  thread : ℕ → Thread
  log : List (ℕ × Event)

namespace Group

variable (g : Group) (t : ℕ)

def setThread (th : Thread) : Group := { g with thread := Function.update g.thread t th }

/-- What a step of thread `t` does to the flags and the log. -/
def perform : Effect → Group
  | .none => g
  | .update n => { g with log := g.log ++ [(t, .update n)] }
  | .signal n c =>
    { g with flags := Function.update g.flags c.1 c.2, log := g.log ++ [(t, .signal n)] }

/-- A thread at a barrier passes it once every thread has come to it. -/
def MayPass (size : ℕ) : Prop := ∀ u < size,
  (g.thread t).passed < (g.thread u).passed ∨
  (g.thread t).passed = (g.thread u).passed ∧ (g.thread u).stmts.head? = some .barrier

instance (size : ℕ) : Decidable (g.MayPass t size) := by
  unfold MayPass
  infer_instance

end Group

namespace Kernel

variable (K : Kernel)

/-- The locks of the ordering, in its order. -/
def locks : List (ℕ × Lock) := (orderLocks K.addr {} K.order).flatten

def code : Code := makeCode K.nodes K.locks

/-- `Gettid`. -/
def tid (n : ℕ) : ℕ := tidOf K.nodes n

/-- The whole program of a thread. -/
def stmts (t : ℕ) : List Stmt := K.body t ++ [.endChecks]

/-- The loop a statement is for thread `t`. `Output` wraps a node in a test
for its thread; what prints nothing is the empty loop. -/
def loopOf (t : ℕ) : Stmt → List Instr
  | .visit n => if K.tid n = t then nodeBody K.addr K.code n else []
  | .barrier => []
  | .endChecks => endBody K.addr K.code t

/-- **The step of thread `t`**, where it has one. In a loop it is one of the body;
between loops it takes the next statement, which at a barrier has to wait for the
others. -/
def stepThread (g : Group) (t : ℕ) : Option Group :=
  let th := g.thread t
  match th.stmts with
  | [] => none
  | st :: rest =>
    match th.loop with
    | some pos =>
      let o := stepLoop g.flags (K.loopOf t st) pos
      some ((g.perform t o.effect).setThread t (match o.next with
        | none => { th with stmts := rest, loop := none }
        | some pos' => { th with loop := some pos' }))
    | none =>
      if st = .barrier then
        if g.MayPass t K.size then
          some (g.setThread t { th with stmts := rest, passed := th.passed + 1 })
        else none
      else if K.loopOf t st = [] then some (g.setThread t { th with stmts := rest })
      else some (g.setThread t { th with loop := some (enter (K.loopOf t st)) })

def start : Group := ⟨fun _ => 0, fun t => ⟨K.stmts t, none, 0⟩, []⟩

/-- **The group's runs**: in each step some thread of the group goes on, whichever it
is. -/
def system : System Group where
  Init g := g = K.start
  Step g g' := ∃ t < K.size, K.stepThread g t = some g'

/-- Every thread of the group is through its program. -/
def Finished (g : Group) : Prop := ∀ t < K.size, (g.thread t).stmts = []

/-- **What a step of a thread is**: a step in its loop, past a statement
that has none for it, into a loop, or past a barrier. -/
theorem stepThread_cases {K : Kernel} {g g' : Group} {t : ℕ}
    (h : K.stepThread g t = some g') : ∃ st rest, (g.thread t).stmts = st :: rest ∧
      ((∃ pos o, (g.thread t).loop = some pos ∧ o = stepLoop g.flags (K.loopOf t st) pos ∧
        (o.next = none ∧ g' = (g.perform t o.effect).setThread t
            ⟨rest, none, (g.thread t).passed⟩ ∨
          ∃ pos', o.next = some pos' ∧ g' = (g.perform t o.effect).setThread t
            ⟨st :: rest, some pos', (g.thread t).passed⟩)) ∨
      ((g.thread t).loop = none ∧ st ≠ .barrier ∧ K.loopOf t st = [] ∧
        g' = g.setThread t ⟨rest, none, (g.thread t).passed⟩) ∨
      ((g.thread t).loop = none ∧ st ≠ .barrier ∧ K.loopOf t st ≠ [] ∧
        g' = g.setThread t ⟨st :: rest, some (enter (K.loopOf t st)), (g.thread t).passed⟩) ∨
      ((g.thread t).loop = none ∧ st = .barrier ∧ g.MayPass t K.size ∧
        g' = g.setThread t ⟨rest, none, (g.thread t).passed + 1⟩)) := by
  unfold stepThread at h
  simp only at h
  split at h
  · cases h
  next st rest hst =>
  refine ⟨st, rest, hst, ?_⟩
  split at h
  · next pos hpos =>
    left
    refine ⟨pos, _, hpos, rfl, ?_⟩
    cases hn : (stepLoop g.flags (K.loopOf t st) pos).next with
    | none =>
      rw [hn] at h
      exact .inl ⟨rfl, (Option.some.inj h).symm⟩
    | some pos' =>
      rw [hn, hst] at h
      exact .inr ⟨pos', rfl, (Option.some.inj h).symm⟩
  · next hpos =>
    right
    split at h
    · next hb =>
      split at h
      · next hp =>
        rw [hpos] at h
        exact .inr (.inr ⟨hpos, hb, hp, (Option.some.inj h).symm⟩)
      · cases h
    · next hb =>
      split at h
      · next hl =>
        rw [hpos] at h
        exact .inl ⟨hpos, hb, hl, (Option.some.inj h).symm⟩
      · next hl =>
        rw [hst] at h
        exact .inr (.inl ⟨hpos, hb, hl, (Option.some.inj h).symm⟩)

end Kernel

end MessagePassing

end CLSmith
