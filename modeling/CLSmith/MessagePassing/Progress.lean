import CLSmith.MessagePassing.Determinism
import Mathlib.Algebra.Order.BigOperators.Group.Finset
/-!
# The group never hangs

A thread that runs alone comes back to the top of its loop, leaves it, or
signals. From the top of a loop it leaves or signals where the loop is of
a node that is through, or where it is some node's turn that the loop is
of or unlocks. One of the two is so for some unfinished thread in every
state, so without barriers the group always goes on, and can finish.
-/

namespace CLSmith

namespace MessagePassing

open Common

/-! ## A thread alone in a loop -/

section Runs

variable {flags : Flag → ℕ} {body is tail : List Instr} {left cs : List Constraint}
  {p q : Position}

/-- A step that stays in the loop and sets no flag. -/
def Quiet (flags : Flag → ℕ) (body : List Instr) (p q : Position) : Prop :=
  ∃ e, stepLoop flags body p = ⟨e, some q⟩ ∧ ∀ n c, e ≠ .signal n c

/-- Any number of them. -/
def QuietRun (flags : Flag → ℕ) (body : List Instr) : Position → Position → Prop :=
  Relation.ReflTransGen (Quiet flags body)

/-- **Alone, the thread comes to leave its loop or to signal**, by steps that change
nothing the others can see. -/
def Exits (flags : Flag → ℕ) (body : List Instr) (p : Position) : Prop :=
  ∃ q, QuietRun flags body p q ∧
    ((stepLoop flags body q).next = none ∨
      ∃ n c, (stepLoop flags body q).effect = .signal n c)

theorem Exits.of_run (h : QuietRun flags body p q) (hq : Exits flags body q) :
    Exits flags body p := by
  obtain ⟨r, hr, he⟩ := hq
  exact ⟨r, h.trans hr, he⟩

theorem QuietRun.step {e : Effect} (h : stepLoop flags body p = ⟨e, some q⟩)
    (he : ∀ n c, e ≠ .signal n c) : QuietRun flags body p q :=
  Relation.ReflTransGen.single ⟨e, h, he⟩

/-- Past a test that jumps out of the loop: out, or on. -/
theorem breakIf_run : Exits flags body (.breakIf cs :: is, left) ∨
    QuietRun flags body (.breakIf cs :: is, left) (enter is) := by
  induction left with
  | nil => exact .inl ⟨_, Relation.ReflTransGen.refl, .inl rfl⟩
  | cons c left ih =>
    by_cases hc : c.2 ≤ flags c.1
    · have hstep : QuietRun flags body (.breakIf cs :: is, c :: left) (.breakIf cs :: is, left) :=
        .step (by rw [stepLoop, if_pos hc]) (by simp)
      exact ih.imp (.of_run hstep) hstep.trans
    · exact .inr (.step (by rw [stepLoop, if_neg hc]) (by simp))

/-- Where all its flags have come far enough it jumps out. -/
theorem breakIf_exits (h : ∀ c ∈ left, c.2 ≤ flags c.1) :
    Exits flags body (.breakIf cs :: is, left) := by
  induction left with
  | nil => exact ⟨_, Relation.ReflTransGen.refl, .inl rfl⟩
  | cons c left ih =>
    have hstep : QuietRun flags body (.breakIf cs :: is, c :: left) (.breakIf cs :: is, left) :=
      .step (by rw [stepLoop, if_pos (h c (by simp))]) (by simp)
    exact .of_run hstep (ih fun d hd => h d (List.mem_cons_of_mem _ hd))

/-- Past an unlock: a signal, or on. -/
theorem unlockIf_run {n : ℕ} {sig : Constraint} :
    Exits flags body (.unlockIf n cs sig :: is, left) ∨
    QuietRun flags body (.unlockIf n cs sig :: is, left) (enter is) := by
  induction left with
  | nil => exact .inl ⟨_, Relation.ReflTransGen.refl, .inr ⟨n, sig, rfl⟩⟩
  | cons c left ih =>
    by_cases hc : flags c.1 = c.2
    · have hstep : QuietRun flags body (.unlockIf n cs sig :: is, c :: left)
          (.unlockIf n cs sig :: is, left) := .step (by rw [stepLoop, if_pos hc]) (by simp)
      exact ih.imp (.of_run hstep) hstep.trans
    · exact .inr (.step (by rw [stepLoop, if_neg hc]) (by simp))

/-- Where all its flags are as it checks it signals. -/
theorem unlockIf_exits {n : ℕ} {sig : Constraint} (h : ∀ c ∈ left, flags c.1 = c.2) :
    Exits flags body (.unlockIf n cs sig :: is, left) := by
  induction left with
  | nil => exact ⟨_, Relation.ReflTransGen.refl, .inr ⟨n, sig, rfl⟩⟩
  | cons c left ih =>
    have hstep : QuietRun flags body (.unlockIf n cs sig :: is, c :: left)
        (.unlockIf n cs sig :: is, left) :=
      .step (by rw [stepLoop, if_pos (h c (by simp))]) (by simp)
    exact .of_run hstep (ih fun d hd => h d (List.mem_cons_of_mem _ hd))

theorem continueUnless_run (h : ∀ c ∈ left, flags c.1 = c.2) :
    QuietRun flags body (.continueUnless cs :: is, left) (enter is) := by
  induction left with
  | nil => exact .step rfl (by simp)
  | cons c left ih =>
    have hstep : QuietRun flags body (.continueUnless cs :: is, c :: left)
        (.continueUnless cs :: is, left) :=
      .step (by rw [stepLoop, if_pos (h c (by simp))]) (by simp)
    exact hstep.trans (ih fun d hd => h d (List.mem_cons_of_mem _ hd))

/-- **A thread alone does not get stuck inside a loop's body.** -/
theorem exits_or_top (flags : Flag → ℕ) (body : List Instr) :
    ∀ (is : List Instr) (left : List Constraint),
    Exits flags body (is, left) ∨ QuietRun flags body (is, left) (enter body) := by
  intro is
  induction is with
  | nil => exact fun left => .inr (.step rfl (by simp))
  | cons i is ih =>
    intro left
    have hon : QuietRun flags body (i :: is, left) (enter is) →
        Exits flags body (i :: is, left) ∨ QuietRun flags body (i :: is, left) (enter body) :=
      fun h => (ih _).imp (.of_run h) h.trans
    cases i with
    | fence => exact hon (.step rfl (by simp))
    | breakIf cs => exact breakIf_run.elim .inl hon
    | unlockIf n cs sig => exact unlockIf_run.elim .inl hon
    | continueUnless cs =>
      by_cases h : ∀ c ∈ left, flags c.1 = c.2
      · exact hon (continueUnless_run h)
      · right
        -- the first check that fails goes back to the top
        clear hon
        induction left with
        | nil => exact absurd (by simp) h
        | cons c left ih' =>
          by_cases hc : flags c.1 = c.2
          · have hstep : QuietRun flags body (.continueUnless cs :: is, c :: left)
                (.continueUnless cs :: is, left) := .step (by rw [stepLoop, if_pos hc]) (by simp)
            exact hstep.trans (ih' fun hall => h fun d hd => (List.mem_cons.mp hd).elim
              (fun he => he ▸ hc) (hall d))
          · exact .step (by rw [stepLoop, if_neg hc]) (by simp)
    | update n => exact hon (.step rfl (by simp))
    | signal n c => exact .inl ⟨_, Relation.ReflTransGen.refl, .inr ⟨n, c, rfl⟩⟩
    | breakLoop => exact .inl ⟨_, Relation.ReflTransGen.refl, .inl rfl⟩

/-- Through the unlocks of a loop: a signal, or on. -/
theorem unlockIfs_run (us : List (ℕ × Lock)) :
    Exits flags body (enter (unlockIfs us ++ tail)) ∨
      QuietRun flags body (enter (unlockIfs us ++ tail)) (enter tail) := by
  induction us with
  | nil => exact .inr Relation.ReflTransGen.refl
  | cons x us ih =>
    have hx : Exits flags body (enter (unlockIfs (x :: us) ++ tail)) ∨
        QuietRun flags body (enter (unlockIfs (x :: us) ++ tail))
          (enter (unlockIfs us ++ tail)) := unlockIf_run
    rcases hx with h | h
    · exact .inl h
    · exact ih.imp (.of_run h) h.trans

/-- One whose checks hold signals. -/
theorem unlockIfs_exits {us : List (ℕ × Lock)} {x : ℕ × Lock} (hx : x ∈ us)
    (h : ∀ c ∈ x.2.checks, flags c.1 = c.2) :
    Exits flags body (enter (unlockIfs us ++ tail)) := by
  induction us with
  | nil => cases hx
  | cons y us ih =>
    rcases List.mem_cons.mp hx with rfl | hx
    · exact unlockIf_exits h
    · have hy : Exits flags body (enter (unlockIfs (y :: us) ++ tail)) ∨
          QuietRun flags body (enter (unlockIfs (y :: us) ++ tail))
            (enter (unlockIfs us ++ tail)) := unlockIf_run
      rcases hy with h' | h'
      · exact h'
      · exact .of_run h' (ih hx)

end Runs

/-! ## From the top of a loop -/

section Top

variable {K : Kernel} {S : Finset ℕ} {flags : Flag → ℕ} {n t u last : ℕ}
  {unlocks : List (ℕ × Lock)} {lock : Lock}

/-- In its turn a node finds the checks of its lock to hold. -/
theorem turn_checks (hfront : K.relay.Front S) (hflags : ∀ f, flags f = K.relay.count S f)
    (hu : K.relay.Turn S u) (hl : (u, lock) ∈ K.locks) : ∀ c ∈ lock.checks, flags c.1 = c.2 := by
  intro c hc
  rw [hflags]
  rw [← Kernel.relay_checks hl] at hc
  exact hu.check hfront hc

/-- The loop of a node that is through is left. -/
theorem Kernel.NodeCode.exits_of_mem (hc : K.NodeCode n unlocks lock) (hfront : K.relay.Front S)
    (hflags : ∀ f, flags f = K.relay.count S f) (hn : n ∈ S) :
    Exits flags (nodeBody K.addr K.code n) (enter (nodeBody K.addr K.code n)) := by
  rw [hc.body]
  refine .of_run (.step rfl (by simp)) (breakIf_exits fun c hcc => ?_)
  rw [hflags]
  exact earlyBreak_le hfront hc.lock_mem hn hcc

/-- **The loop of a node signals** where it is the turn of the node or of
one before it in its thread. -/
theorem Kernel.NodeCode.exits_of_turn (hc : K.NodeCode n unlocks lock)
    (hfront : K.relay.Front S) (hflags : ∀ f, flags f = K.relay.count S f)
    (hu : K.relay.Turn S u) (ht : K.tid u = K.tid n) (hle : u ≤ n) :
    Exits flags (nodeBody K.addr K.code n) (enter (nodeBody K.addr K.code n)) := by
  rw [hc.body]
  refine .of_run (.step rfl (by simp)) ?_
  refine breakIf_run.elim id fun hrun => .of_run hrun ?_
  obtain ⟨l, hl⟩ := Kernel.mem_relay.mp hu.mem
  have hchecks := turn_checks hfront hflags hu hl
  rcases eq_or_ne u n with rfl | hne
  · obtain rfl := Kernel.lock_unique hl hc.lock_mem
    refine (unlockIfs_run unlocks).elim id fun hrun => .of_run hrun ?_
    refine .of_run (continueUnless_run hchecks) (.of_run (q := enter (makeSignal u l.signal)) ?_ ?_)
    · exact .step (e := .update u) rfl (by simp)
    · exact ⟨_, Relation.ReflTransGen.refl, .inr ⟨u, l.signal, rfl⟩⟩
  · exact unlockIfs_exits ((hc.mem_unlocks (u, l)).mpr ⟨hl, ht, by omega⟩) hchecks

/-- The end checks of a thread are left once its last node is through. -/
theorem Kernel.EndCode.exits_of_mem (hc : K.EndCode t unlocks last lock)
    (hfront : K.relay.Front S) (hflags : ∀ f, flags f = K.relay.count S f) (hl : last ∈ S) :
    Exits flags (endBody K.addr K.code t) (enter (endBody K.addr K.code t)) := by
  rw [hc.body]
  refine .of_run (.step rfl (by simp)) ?_
  refine (unlockIfs_run unlocks).elim id fun hrun => .of_run hrun ?_
  refine .of_run (.step rfl (by simp)) (breakIf_exits fun c hcc => ?_)
  rw [hflags]
  exact earlyBreak_le hfront hc.lock_mem hl hcc

/-- **The end checks of a thread signal** where it is the turn of a node
of it. -/
theorem Kernel.EndCode.exits_of_turn (hc : K.EndCode t unlocks last lock)
    (hfront : K.relay.Front S) (hflags : ∀ f, flags f = K.relay.count S f)
    (hu : K.relay.Turn S u) (ht : K.tid u = t) :
    Exits flags (endBody K.addr K.code t) (enter (endBody K.addr K.code t)) := by
  rw [hc.body]
  refine .of_run (.step rfl (by simp)) ?_
  obtain ⟨l, hl⟩ := Kernel.mem_relay.mp hu.mem
  exact unlockIfs_exits ((hc.mem_unlocks (u, l)).mpr ⟨hl, ht⟩) (turn_checks hfront hflags hu hl)

end Top

/-! ## A thread alone in the group -/

section Solo

variable {K : Kernel} {g g' : Group} {t u : ℕ} {st : Stmt} {rest : List Stmt} {pos pos' : Position}

/-- Any number of steps of one thread. -/
def Kernel.Solo (K : Kernel) (t : ℕ) : Group → Group → Prop :=
  Relation.ReflTransGen fun g g' => K.stepThread g t = some g'

/-- **Thread `t` goes on**: running alone it comes, with no flag changed
and still at its statement, to a step that changes a flag or leaves the
statement. -/
def Kernel.GoesOn (K : Kernel) (g : Group) (t : ℕ) : Prop :=
  ∃ g₁ g₂, K.Solo t g g₁ ∧ g₁.flags = g.flags ∧ (g₁.thread t).stmts = (g.thread t).stmts ∧
    K.stepThread g₁ t = some g₂ ∧
    (g₂.flags ≠ g₁.flags ∨ (g₂.thread t).stmts = (g₁.thread t).stmts.tail)

theorem Kernel.Solo.reaches (ht : t < K.size) (h : K.Solo t g g') : K.system.Reaches g g' := by
  induction h with
  | refl => exact System.Reaches.refl
  | tail _ hstep ih => exact ih.tail ⟨t, ht, hstep⟩

/-- A run inside a loop is a run of the thread. -/
theorem solo_of_quietRun (hst : (g.thread t).stmts = st :: rest)
    (hpos : (g.thread t).loop = some pos) (h : QuietRun g.flags (K.loopOf t st) pos pos') :
    ∃ g', K.Solo t g g' ∧ g'.flags = g.flags ∧ (g'.thread t).stmts = st :: rest ∧
      (g'.thread t).loop = some pos' := by
  induction h with
  | refl => exact ⟨g, Relation.ReflTransGen.refl, rfl, hst, hpos⟩
  | @tail p q hrun hq ih =>
    obtain ⟨g₁, hsolo, hflags, hst₁, hpos₁⟩ := ih
    obtain ⟨e, ho, hne⟩ := hq
    have hstep : K.stepThread g₁ t = some ((g₁.perform t e).setThread t
        ⟨st :: rest, some q, (g₁.thread t).passed⟩) := by
      unfold Kernel.stepThread
      simp only [hst₁, hpos₁, hflags, ho]
    refine ⟨_, hsolo.tail hstep, ?_, by simp, by simp⟩
    rw [Group.setThread_flags, ← hflags]
    cases e with
    | none => rfl
    | update n => rfl
    | signal n c => exact absurd rfl (hne n c)

/-- **A loop that exits goes on.** -/
theorem goesOn_of_exits (hg : K.system.Reachable g) (ht : t < K.size)
    (hst : (g.thread t).stmts = st :: rest) (hpos : (g.thread t).loop = some pos)
    (h : Exits g.flags (K.loopOf t st) pos) : K.GoesOn g t := by
  obtain ⟨q, hrun, hq⟩ := h
  obtain ⟨g₁, hsolo, hflags, hst₁, hpos₁⟩ := solo_of_quietRun hst hpos hrun
  have hi := reachable_inv (hg.reaches (hsolo.reaches ht))
  have hloc := (hi.thread t).step hi.front hi.count hst₁ hpos₁
  refine ⟨g₁, _, hsolo, hflags, hst₁.trans hst.symm, by
    unfold Kernel.stepThread
    simp only [hst₁, hpos₁]
    rfl, ?_⟩
  rw [hflags] at hloc ⊢
  rcases hq with hnone | ⟨n, c, hsig⟩
  · right
    rw [hnone, hst₁, Group.setThread_thread_self]
    rfl
  · left
    rw [hsig] at hloc ⊢
    -- a signal is made in its node's turn, so it raises the flag
    cases hloc with
    | signal htid hturn hth =>
      rw [Group.setThread_flags]
      intro he
      have hn := congrFun he (K.relay.flag n)
      have hsucc := hturn.count_succ hi.front
      have hcount := hi.count (K.relay.flag n)
      rw [hflags] at hcount
      change Function.update _ _ _ _ = _ at hn
      rw [Function.update_self] at hn
      omega

/-- **From any place in a statement a thread goes on**, if it would from
the top of the statement's loop. -/
theorem goesOn_of_top (hg : K.system.Reachable g) (ht : t < K.size)
    (hst : (g.thread t).stmts = st :: rest) (hbar : st ≠ .barrier)
    (htop : K.loopOf t st ≠ [] →
      Exits g.flags (K.loopOf t st) (enter (K.loopOf t st))) : K.GoesOn g t := by
  cases hpos : (g.thread t).loop with
  | some pos =>
    rcases exits_or_top g.flags (K.loopOf t st) pos.1 pos.2 with h | h
    · exact goesOn_of_exits hg ht hst hpos h
    · by_cases hnil : K.loopOf t st = []
      · exact absurd hnil (((reachable_inv hg).thread t).loopOf_ne_nil hst hpos)
      · exact goesOn_of_exits hg ht hst hpos (.of_run h (htop hnil))
  | none =>
    by_cases hnil : K.loopOf t st = []
    · refine ⟨g, g.setThread t ⟨rest, none, (g.thread t).passed⟩, Relation.ReflTransGen.refl,
        rfl, rfl, ?_, .inr ?_⟩
      · unfold Kernel.stepThread
        simp only [hst, hpos, if_neg hbar, if_pos hnil]
      · rw [Group.setThread_thread_self, hst]
        rfl
    · -- it comes into the loop, and then to its exit
      have hstep : K.stepThread g t = some (g.setThread t
          ⟨st :: rest, some (enter (K.loopOf t st)), (g.thread t).passed⟩) := by
        unfold Kernel.stepThread
        simp only [hst, hpos, if_neg hbar, if_neg hnil]
      obtain ⟨g₁, g₂, hsolo, hflags, hst₁, h⟩ := goesOn_of_exits
        (hg.step ⟨t, ht, hstep⟩) ht (by rw [Group.setThread_thread_self])
        (by rw [Group.setThread_thread_self]) (htop hnil)
      refine ⟨g₁, g₂, hsolo.head hstep, hflags, ?_, h⟩
      rw [hst₁, Group.setThread_thread_self, hst]

/-- **In the turn of a node of its thread, a thread goes on.** -/
theorem Inv.goesOn_of_turn (hg : K.system.Reachable g) (hu : K.relay.Turn g.signals.toFinset u)
    (ht : K.tid u = t) (hst : (g.thread t).stmts = st :: rest) (hbar : st ≠ .barrier) :
    K.GoesOn g t := by
  have hi := reachable_inv hg
  refine goesOn_of_top hg (ht ▸ Kernel.tid_lt_size hu.mem) hst hbar fun hne => ?_
  rcases Kernel.loopOf_cases hne with ⟨n, unlocks, lock, rfl, htn, hc, hbody⟩ |
    ⟨unlocks, last, lock, rfl, hc⟩
  · rw [hbody]
    rcases Nat.lt_or_ge n u with hlt | hle
    · -- the node visited is before the one whose turn it is
      have hn := Kernel.mem_relay.mpr ⟨lock, hc.lock_mem⟩
      have hstep := (Kernel.step_lt_iff hn hu.mem (htn.trans ht.symm)).mpr hlt
      exact hc.exits_of_mem hi.front hi.count (hu.earlier n hn hstep)
    · exact hc.exits_of_turn hi.front hi.count hu (ht.trans htn.symm) hle
  · exact hc.exits_of_turn hi.front hi.count hu ht

/-- **When every node is through, a thread goes on.** -/
theorem Inv.goesOn_of_all (hg : K.system.Reachable g) (ht : t < K.size)
    (hall : K.relay.nodes ⊆ g.signals.toFinset)
    (hst : (g.thread t).stmts = st :: rest) (hbar : st ≠ .barrier) : K.GoesOn g t := by
  have hi := reachable_inv hg
  refine goesOn_of_top hg ht hst hbar fun hne => ?_
  rcases Kernel.loopOf_cases hne with ⟨n, unlocks, lock, rfl, htn, hc, hbody⟩ |
    ⟨unlocks, last, lock, rfl, hc⟩
  · rw [hbody]
    exact hc.exits_of_mem hi.front hi.count (hall (Kernel.mem_relay.mpr ⟨lock, hc.lock_mem⟩))
  · exact hc.exits_of_mem hi.front hi.count (hall (Kernel.mem_relay.mpr ⟨lock, hc.lock_mem⟩))

end Solo

/-! ## How far the group is -/

section Measure

variable {K : Kernel} {g g' : Group} {t u : ℕ}

/-- How many statements the threads are through with, and how many nodes
have signalled. -/
def Kernel.done (K : Kernel) (g : Group) : ℕ :=
  ∑ u ∈ Finset.range K.size, ((K.stmts u).length - (g.thread u).stmts.length) + g.signals.length

/-- What a step leaves of the threads' statements. -/
theorem stepThread_stmts (h : K.stepThread g t = some g') :
    (∀ u, u ≠ t → g'.thread u = g.thread u) ∧
    ((g'.thread t).stmts = (g.thread t).stmts ∨
      (g.thread t).stmts ≠ [] ∧ (g'.thread t).stmts = (g.thread t).stmts.tail) := by
  have hother : ∀ {g : Group} {th : Thread} {u}, u ≠ t → (g.setThread t th).thread u = g.thread u :=
    fun hne => Group.setThread_thread_of_ne hne
  obtain ⟨st, rest, hst, hcase⟩ := Kernel.stepThread_cases h
  rcases hcase with ⟨pos, o, hpos, rfl, hnext⟩ | ⟨hpos, -, hnil, rfl⟩ | ⟨hpos, -, hne, rfl⟩ |
    ⟨hpos, rfl, -, rfl⟩
  · rcases hnext with ⟨-, rfl⟩ | ⟨pos', -, rfl⟩
    · refine ⟨fun u hu => by rw [hother hu, Group.perform_thread], .inr ⟨by simp [hst], ?_⟩⟩
      simp [hst]
    · refine ⟨fun u hu => by rw [hother hu, Group.perform_thread], .inl ?_⟩
      simp [hst]
  · exact ⟨fun u hu => hother hu, .inr ⟨by simp [hst], by simp [hst]⟩⟩
  · exact ⟨fun u hu => hother hu, .inl (by simp [hst])⟩
  · exact ⟨fun u hu => hother hu, .inr ⟨by simp [hst], by simp [hst]⟩⟩

/-- A step makes at most one signal. -/
theorem stepThread_signals (h : K.stepThread g t = some g') :
    g'.signals = g.signals ∧ g'.flags = g.flags ∨ ∃ n, g'.signals = g.signals ++ [n] := by
  obtain ⟨st, rest, hst, hcase⟩ := Kernel.stepThread_cases h
  rcases hcase with ⟨pos, o, hpos, -, hnext⟩ | ⟨-, -, -, rfl⟩ | ⟨-, -, -, rfl⟩ | ⟨-, -, -, rfl⟩
  · have hperf : (g.perform t o.effect).signals = g.signals ∧
        (g.perform t o.effect).flags = g.flags ∨
        ∃ n, (g.perform t o.effect).signals = g.signals ++ [n] := by
      cases o.effect with
      | none => exact .inl ⟨rfl, rfl⟩
      | update n => exact .inl ⟨Group.signals_update, rfl⟩
      | signal n c => exact .inr ⟨n, Group.signals_signal⟩
    rcases hnext with ⟨-, rfl⟩ | ⟨pos', -, rfl⟩
    · exact hperf
    · exact hperf
  all_goals exact .inl ⟨rfl, rfl⟩

/-- What a thread has left is the end of its program. -/
theorem stmts_suffix (h : K.system.Reachable g) (u : ℕ) : (g.thread u).stmts <:+ K.stmts u := by
  refine h.invariant (I := fun g => ∀ u, (g.thread u).stmts <:+ K.stmts u) (fun s hs u => ?_)
    (fun s s' _ hi hstep u => ?_) u
  · obtain rfl : s = K.start := hs
    exact List.suffix_refl _
  · obtain ⟨t, -, hstep⟩ := hstep
    obtain ⟨hother, hself⟩ := stepThread_stmts hstep
    rcases eq_or_ne u t with rfl | hne
    · rcases hself with he | ⟨-, he⟩
      · rw [he]
        exact hi u
      · rw [he]
        exact (List.tail_suffix _).trans (hi u)
    · rw [hother u hne]
      exact hi u

/-- A step takes the group no way back. -/
theorem done_mono (h : K.stepThread g t = some g') : K.done g ≤ K.done g' := by
  obtain ⟨hother, hself⟩ := stepThread_stmts h
  have hlen : ∀ u, (g'.thread u).stmts.length ≤ (g.thread u).stmts.length := by
    intro u
    rcases eq_or_ne u t with rfl | hne
    · rcases hself with he | ⟨-, he⟩
      · rw [he]
      · rw [he, List.length_tail]
        omega
    · rw [hother u hne]
  have hsig : g.signals.length ≤ g'.signals.length := by
    rcases stepThread_signals h with ⟨he, -⟩ | ⟨n, he⟩
    · rw [he]
    · rw [he, List.length_append]
      omega
  refine Nat.add_le_add (Finset.sum_le_sum fun u _ => ?_) hsig
  have := hlen u
  omega

theorem done_mono_step (s s' : Group) (_ : K.system.Reachable s) (h : K.system.Step s s') :
    K.done s ≤ K.done s' := by
  obtain ⟨t, -, hstep⟩ := h
  exact done_mono hstep

/-- A step through with a statement, or with a signal, takes it on. -/
theorem done_lt (hg : K.system.Reachable g) (ht : t < K.size) (h : K.stepThread g t = some g')
    (hon : g'.flags ≠ g.flags ∨ (g'.thread t).stmts = (g.thread t).stmts.tail) :
    K.done g < K.done g' := by
  obtain ⟨hother, hself⟩ := stepThread_stmts h
  have hle : ∀ u, (K.stmts u).length - (g.thread u).stmts.length ≤
      (K.stmts u).length - (g'.thread u).stmts.length := by
    intro u
    rcases eq_or_ne u t with rfl | hne
    · rcases hself with he | ⟨-, he⟩
      · rw [he]
      · rw [he, List.length_tail]
        omega
    · rw [hother u hne]
  rcases stepThread_signals h with ⟨hs, hf⟩ | ⟨n, hs⟩
  · -- the statement is done with, and there was one
    have htail := hon.resolve_left fun hne => hne hf
    have hne : (g.thread t).stmts ≠ [] := by
      obtain ⟨st, rest, hst, -⟩ := Kernel.stepThread_cases h
      rw [hst]
      exact List.cons_ne_nil _ _
    refine Nat.add_lt_add_of_lt_of_le (Finset.sum_lt_sum (fun u _ => hle u)
      ⟨t, Finset.mem_range.mpr ht, ?_⟩) (by rw [hs])
    have hsuf := (stmts_suffix hg t).length_le
    have hpos := List.length_pos_of_ne_nil hne
    rw [htail, List.length_tail]
    omega
  · refine Nat.add_lt_add_of_le_of_lt (Finset.sum_le_sum fun u _ => hle u) ?_
    rw [hs, List.length_append]
    simp

/-- There is only so far to go. -/
theorem done_le (hg : K.system.Reachable g) : K.done g ≤
    ∑ u ∈ Finset.range K.size, (K.stmts u).length + K.relay.nodes.card := by
  have hi := reachable_inv hg
  refine Nat.add_le_add (Finset.sum_le_sum fun u _ => Nat.sub_le _ _) ?_
  rw [← List.toFinset_card_of_nodup hi.nodup_signals]
  exact Finset.card_le_card hi.front.subset

/-- Where a thread goes on the group comes further. -/
theorem Kernel.GoesOn.done_lt (hg : K.system.Reachable g) (ht : t < K.size)
    (h : K.GoesOn g t) : ∃ g', K.system.Reaches g g' ∧ K.done g < K.done g' := by
  obtain ⟨g₁, g₂, hsolo, -, -, hstep, hon⟩ := h
  have hr := hsolo.reaches ht
  refine ⟨g₂, hr.tail ⟨t, ht, hstep⟩, ?_⟩
  have hle := hr.measure_le done_mono_step hg
  exact hle.trans_lt (CLSmith.MessagePassing.done_lt (hg.reaches hr) ht hstep hon)

end Measure

/-! ## Without barriers -/

section NoBarriers

variable {K : Kernel} {g : Group} {t : ℕ}

/-- The kernel with the given visits for its threads' programs, and no
barriers. -/
def Kernel.withVisits (K : Kernel) (visits : ℕ → List ℕ) : Kernel :=
  { K with
    body := fun t => (visits t).map .visit
    body_end := by simp }

/-- In an unfinished group without barriers some thread goes on. -/
theorem exists_goesOn (hbar : ∀ t, Stmt.barrier ∉ K.stmts t) (hg : K.system.Reachable g)
    (hfin : ¬ K.Finished g) : ∃ t < K.size, K.GoesOn g t := by
  have hi := reachable_inv hg
  have hhead : ∀ {t st rest}, (g.thread t).stmts = st :: rest → st ≠ .barrier := by
    intro t st rest hst he
    have hmem : st ∈ (g.thread t).stmts := by rw [hst]; simp
    exact hbar t (he ▸ (stmts_suffix hg t).subset hmem)
  by_cases hall : K.relay.nodes ⊆ g.signals.toFinset
  · -- every node is through: any thread left goes on
    unfold Kernel.Finished at hfin
    push Not at hfin
    obtain ⟨t, ht, hne⟩ := hfin
    obtain ⟨st, rest, hst⟩ := List.exists_cons_of_ne_nil hne
    exact ⟨t, ht, Inv.goesOn_of_all hg ht hall hst (hhead hst)⟩
  · -- the thread of a node whose turn it is cannot be done with its end checks
    obtain ⟨n, hn, hfresh⟩ := Finset.not_subset.mp hall
    obtain ⟨u, hu, -⟩ := Relay.exists_turn hn hfresh
    refine ⟨K.tid u, Kernel.tid_lt_size hu.mem, ?_⟩
    cases hst : (g.thread (K.tid u)).stmts with
    | nil => exact absurd ((hi.thread (K.tid u)).mem_of_nil hst hu.mem rfl) hu.fresh
    | cons st rest => exact Inv.goesOn_of_turn hg hu rfl hst (hhead hst)

/-- **Message passing does not deadlock.** Without barriers, in every state
of every run in which some thread is not through, some thread goes on: by
itself it comes to a step that leaves its statement or changes a flag. And
from every such state the group can finish. -/
theorem messages_deadlock_free (K : Kernel) (visits : ℕ → List ℕ) (g : Group)
    (hg : (K.withVisits visits).system.Reachable g) :
    (¬ (K.withVisits visits).Finished g →
      ∃ t < K.size, (g.thread t).stmts ≠ [] ∧ (K.withVisits visits).GoesOn g t) ∧
    ∃ g', (K.withVisits visits).system.Reaches g g' ∧ (K.withVisits visits).Finished g' := by
  have hbar : ∀ t, Stmt.barrier ∉ (K.withVisits visits).stmts t := by
    simp [Kernel.stmts, Kernel.withVisits]
  refine ⟨fun hfin => ?_, ?_⟩
  · obtain ⟨t, ht, h⟩ := exists_goesOn hbar hg hfin
    refine ⟨t, ht, fun hnil => ?_, h⟩
    -- a thread that is through has no step
    obtain ⟨g₁, g₂, -, -, hst, hstep, -⟩ := h
    obtain ⟨st, rest, hst', -⟩ := Kernel.stepThread_cases hstep
    rw [hst, hnil] at hst'
    cases hst'
  · refine System.exists_reaches_final done_mono_step (fun _ h => done_le h)
      (fun s hs hfin => ?_) hg
    obtain ⟨t, ht, h⟩ := exists_goesOn hbar hs hfin
    exact h.done_lt hs ht

/-- Three nodes of two threads. The ordering drawn is one asynchronous pair,
after which neither thread may be drawn: the third node stays unordered. -/
def pairKernel : Kernel where
  size := 2
  nodes := [0, 1, 0]
  tid_lt := by decide
  order := [⟨0, some 1⟩]
  generated := ⟨[0, 5, 2], [], rfl⟩
  addr
    | .f1 => 0
    | .f2 => 1
    | .f3 => 2
    | .f4 => 3
  body _ := []
  body_end := by simp

/-- With one thread at the unordered node and the other at no node, the
pair's kernel goes on from the start. -/
theorem pairKernel_goes_on : ∃ t < pairKernel.size,
    (pairKernel.withVisits fun t => if t = 0 then [2, 2] else []).GoesOn
      (pairKernel.withVisits fun t => if t = 0 then [2, 2] else []).start t := by
  obtain ⟨t, ht, -, h⟩ := (messages_deadlock_free pairKernel
    (fun t => if t = 0 then [2, 2] else []) _ (System.Reachable.init rfl)).1
      fun hfin => by simpa [Kernel.start, Kernel.stmts] using hfin 0 (Nat.zero_lt_two)
  exact ⟨t, ht, h⟩

end NoBarriers

end MessagePassing

end CLSmith
