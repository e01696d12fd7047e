import CLSmith.MessagePassing.Progress
import CLSmith.Options
/-!
# Message passing next to barriers

A straight-line program of message nodes and of the statements that emit
barriers, run by every thread of the group. The ordering of the nodes
knows nothing of the barriers: where it puts a node before one that stands
fewer barriers into the program, the later node's thread spins in its loop
for a signal that comes only behind a barrier it never reaches. Where it
never does, the group always finishes.
-/

namespace CLSmith

namespace MessagePassing

open Common

/-! ## What a barrier holds back -/

section Passing

variable {K : Kernel} {g g' : Group} {t u : ℕ}

/-- The barriers a thread has passed are those of its program it has no
longer left. -/
theorem passed_add_count (hg : K.system.Reachable g) (t : ℕ) :
    (g.thread t).passed + (g.thread t).stmts.count .barrier = (K.stmts t).count .barrier := by
  refine hg.invariant (I := fun g => ∀ t, (g.thread t).passed +
    (g.thread t).stmts.count .barrier = (K.stmts t).count .barrier) (fun s hs t => ?_)
    (fun s s' hs hi hstep t => ?_) t
  · obtain rfl : s = K.start := hs
    simp [Kernel.start]
  · obtain ⟨u, -, hstep⟩ := hstep
    rcases eq_or_ne t u with rfl | hne
    · have hi := hi t
      have hloc := (reachable_inv hs).thread t
      obtain ⟨st, rest, hst, hcase⟩ := Kernel.stepThread_cases hstep
      rw [hst] at hi
      rcases hcase with ⟨pos, o, hpos, rfl, hnext⟩ | ⟨hpos, hbar, -, rfl⟩ |
        ⟨hpos, hbar, -, rfl⟩ | ⟨hpos, rfl, -, rfl⟩
      · -- what is left behind with a loop is no barrier
        have hbar : st ≠ .barrier := fun he => hloc.loopOf_ne_nil hst hpos (by rw [he]; rfl)
        rcases hnext with ⟨-, rfl⟩ | ⟨pos', -, rfl⟩
        · rw [List.count_cons_of_ne hbar] at hi
          simpa using hi
        · simpa using hi
      · rw [List.count_cons_of_ne hbar] at hi
        simpa using hi
      · simpa using hi
      · rw [List.count_cons_self] at hi
        simp only [Group.setThread_thread_self]
        omega
    · rw [(stepThread_stmts hstep).1 t hne]
      exact hi t

/-- **Barriers keep the group together**: a thread is at most one barrier
ahead of another, and then the other is at it. -/
theorem passed_le (hg : K.system.Reachable g) (ht : t < K.size) (hu : u < K.size) :
    (g.thread t).passed ≤ (g.thread u).passed ∨
      (g.thread t).passed = (g.thread u).passed + 1 ∧
        (g.thread u).stmts.head? = some .barrier := by
  refine hg.invariant (I := fun g => ∀ t < K.size, ∀ u < K.size,
    (g.thread t).passed ≤ (g.thread u).passed ∨ (g.thread t).passed = (g.thread u).passed + 1 ∧
      (g.thread u).stmts.head? = some .barrier) (fun s hs t _ u _ => ?_)
    (fun s s' hs hi hstep t ht u hu => ?_) t ht u hu
  · obtain rfl : s = K.start := hs
    exact .inl (Nat.le_refl _)
  · obtain ⟨x, hx, hstep⟩ := hstep
    obtain ⟨hother, -⟩ := stepThread_stmts hstep
    have hloc := (reachable_inv hs).thread x
    obtain ⟨st, rest, hst, hcase⟩ := Kernel.stepThread_cases hstep
    have hhead : (s.thread x).stmts.head? = some st := by rw [hst]; rfl
    -- either nothing passes and a thread at a barrier stays, or `x` passes
    have hx : ((s'.thread x).passed = (s.thread x).passed ∧ st ≠ .barrier) ∨
        (s.MayPass x K.size ∧ (s'.thread x).passed = (s.thread x).passed + 1) := by
      rcases hcase with ⟨pos, o, hpos, rfl, hnext⟩ | ⟨hpos, hbar, -, rfl⟩ |
        ⟨hpos, hbar, -, rfl⟩ | ⟨hpos, rfl, hp, rfl⟩
      · have hbar : st ≠ .barrier := fun he => hloc.loopOf_ne_nil hst hpos (by rw [he]; rfl)
        rcases hnext with ⟨-, rfl⟩ | ⟨pos', -, rfl⟩ <;> exact .inl ⟨by simp, hbar⟩
      · exact .inl ⟨by simp, hbar⟩
      · exact .inl ⟨by simp, hbar⟩
      · exact .inr ⟨hp, by simp⟩
    have hi' := hi t ht u hu
    rcases eq_or_ne t x with htx | htx <;> rcases eq_or_ne u x with hux | hux
    · rw [htx, hux]
      exact .inl (Nat.le_refl _)
    · rw [htx] at hi' ⊢
      rw [hother u hux]
      rcases hx with ⟨hp, -⟩ | ⟨hp, hp'⟩
      · rw [hp]
        exact hi'
      · rw [hp']
        rcases hp u hu with h | ⟨h, hb⟩
        · exact .inl h
        · exact .inr ⟨by omega, hb⟩
    · rw [hux] at hi' ⊢
      rw [hother t htx]
      rcases hx with ⟨hp, hbar⟩ | ⟨-, hp'⟩
      · rw [hp]
        rcases hi' with h | ⟨-, hb⟩
        · exact .inl h
        · rw [hhead] at hb
          exact absurd (Option.some.inj hb) hbar
      · rw [hp']
        rcases hi' with h | ⟨h, -⟩
        · exact .inl (by omega)
        · exact .inl h.le
    · rw [hother t htx, hother u hux]
      exact hi'

/-- With the same barriers in every program, in an unfinished group some
thread may pass the barrier it is at, or one that no thread is behind is
at a statement other than a barrier. -/
theorem exists_behind (hg : K.system.Reachable g)
    (hsame : ∀ t u, (K.stmts t).count .barrier = (K.stmts u).count .barrier)
    (hfin : ¬ K.Finished g) :
    (∃ t < K.size, (g.thread t).stmts.head? = some .barrier ∧ g.MayPass t K.size) ∨
    ∃ t < K.size, ∃ st rest, (g.thread t).stmts = st :: rest ∧ st ≠ .barrier ∧
      ∀ u < K.size, (g.thread t).passed ≤ (g.thread u).passed := by
  unfold Kernel.Finished at hfin
  push Not at hfin
  obtain ⟨w, hw, hwne⟩ := hfin
  obtain ⟨t, ht, hmin⟩ := Finset.exists_min_image (Finset.range K.size)
    (fun u => (g.thread u).passed) ⟨w, Finset.mem_range.mpr hw⟩
  rw [Finset.mem_range] at ht
  have hmin : ∀ u < K.size, (g.thread t).passed ≤ (g.thread u).passed :=
    fun u hu => hmin u (Finset.mem_range.mpr hu)
  by_cases hall : ∀ u < K.size, (g.thread u).passed = (g.thread t).passed →
      (g.thread u).stmts.head? = some .barrier
  · refine .inl ⟨t, ht, hall t ht rfl, fun u hu => ?_⟩
    rcases (hmin u hu).lt_or_eq with h | h
    · exact .inl h
    · exact .inr ⟨h, hall u hu h.symm⟩
  · right
    push Not at hall
    obtain ⟨u, hu, hpu, hbar⟩ := hall
    cases hst : (g.thread u).stmts with
    | cons st rest =>
      refine ⟨u, hu, st, rest, hst, fun he => hbar (by rw [hst, he]; rfl), fun x hx => ?_⟩
      rw [hpu]
      exact hmin x hx
    | nil =>
      -- `u` has passed every barrier there is, so no thread has one left
      have hcu := passed_add_count hg u
      have hcw := passed_add_count hg w
      rw [hst, List.count_nil] at hcu
      have hle := hmin w hw
      have hs := hsame u w
      have hzero : (g.thread w).stmts.count .barrier = 0 := by omega
      obtain ⟨st, rest, hstw⟩ := List.exists_cons_of_ne_nil hwne
      rw [hstw] at hzero
      refine ⟨w, hw, st, rest, hstw, fun he => ?_, fun x hx => ?_⟩
      · rw [he, List.count_cons_self] at hzero
        omega
      · have := hmin x hx
        rw [hstw] at hcw
        omega

/-- **Thread `t` waits in vain**: it is at the visit of a node `v` that has
not signalled, the turn is that of an earlier node `u`, and the thread of
`u` is at a barrier `t` has not come to. -/
structure Stuck (K : Kernel) (g : Group) (t v u : ℕ) : Prop where
  lt_size : t < K.size
  head : (g.thread t).stmts.head? = some (.visit v)
  mem : v ∈ K.relay.nodes
  tid : K.tid v = t
  fresh : v ∉ g.signals
  turn : K.relay.Turn g.signals.toFinset u
  step : K.relay.step u < K.relay.step v
  barrier : (g.thread (K.tid u)).stmts.head? = some .barrier
  behind : (g.thread t).passed ≤ (g.thread (K.tid u)).passed

/-- **An unfinished group comes further, or a thread waits in vain.** -/
theorem progress_or_stuck (hg : K.system.Reachable g)
    (hsame : ∀ t u, (K.stmts t).count .barrier = (K.stmts u).count .barrier)
    (hfin : ¬ K.Finished g) :
    (∃ g', K.system.Reaches g g' ∧ K.done g < K.done g') ∨ ∃ t v u, Stuck K g t v u := by
  have hi := reachable_inv hg
  rcases exists_behind hg hsame hfin with ⟨t, ht, hbar, hpass⟩ | ⟨t, ht, st, rest, hst, hbar, hmin⟩
  · -- a barrier is passed
    left
    cases hst : (g.thread t).stmts with
    | nil =>
      rw [hst] at hbar
      cases hbar
    | cons st rest =>
      rw [hst] at hbar
      obtain rfl : st = .barrier := Option.some.inj hbar
      have hpos : (g.thread t).loop = none := by
        cases hpos : (g.thread t).loop with
        | none => rfl
        | some pos => exact absurd rfl ((hi.thread t).loopOf_ne_nil hst hpos)
      have hstep : K.stepThread g t = some
          (g.setThread t ⟨rest, none, (g.thread t).passed + 1⟩) := by
        unfold Kernel.stepThread
        simp only [hst, hpos, if_pos, if_pos hpass]
      refine ⟨_, System.Reaches.single ⟨t, ht, hstep⟩, done_lt hg ht hstep (.inr ?_)⟩
      simp [hst]
  · by_cases hon : K.GoesOn g t
    · exact .inl (hon.done_lt hg ht)
    by_cases hother : ∃ u < K.size, K.GoesOn g u
    · obtain ⟨u, hu, h⟩ := hother
      exact .inl (h.done_lt hg hu)
    right
    -- whoever's turn it is, its thread is at a barrier
    have hturn : ∀ u, K.relay.Turn g.signals.toFinset u →
        (g.thread (K.tid u)).stmts.head? = some .barrier := by
      intro u hu
      have htu := Kernel.tid_lt_size hu.mem
      cases hstu : (g.thread (K.tid u)).stmts with
      | nil => exact absurd ((hi.thread _).mem_of_nil hstu hu.mem rfl) hu.fresh
      | cons st' rest' =>
        by_contra hb
        refine hother ⟨_, htu, Inv.goesOn_of_turn hg hu rfl hstu fun he => hb ?_⟩
        rw [he]
        rfl
    by_cases hnil : K.loopOf t st = []
    · exact absurd (goesOn_of_top hg ht hst hbar fun h => absurd hnil h) hon
    rcases Kernel.loopOf_cases hnil with ⟨v, unlocks, lock, rfl, htv, hc, hbody⟩ |
      ⟨unlocks, last, lock, rfl, hc⟩
    · have hv := Kernel.mem_relay.mpr ⟨lock, hc.lock_mem⟩
      have hfresh : v ∉ g.signals.toFinset := by
        intro hmem
        refine hon (goesOn_of_top hg ht hst hbar fun _ => ?_)
        rw [hbody]
        exact hc.exits_of_mem hi.front hi.count hmem
      obtain ⟨u, hu, hle⟩ := Relay.exists_turn hv hfresh
      have hlt : K.relay.step u < K.relay.step v := by
        refine hle.lt_of_ne fun he => hon (Inv.goesOn_of_turn hg ⟨hv, hfresh, fun m hm hlt => ?_⟩
          htv hst hbar)
        exact hu.earlier m hm (by omega)
      exact ⟨t, v, u, ht, by rw [hst]; rfl, hv, htv,
        fun hmem => hfresh (List.mem_toFinset.mpr hmem), hu, hlt, hturn u hu,
        hmin _ (Kernel.tid_lt_size hu.mem)⟩
    · -- at its end checks a thread has passed every barrier
      have hall : ¬ K.relay.nodes ⊆ g.signals.toFinset := fun hall =>
        hon (Inv.goesOn_of_all hg ht hall hst hbar)
      obtain ⟨n, hn, hfresh⟩ := Finset.not_subset.mp hall
      obtain ⟨u, hu, -⟩ := Relay.exists_turn hn hfresh
      have hb := hturn u hu
      obtain ⟨pre, hpre⟩ := stmts_suffix hg t
      rw [hst] at hpre
      obtain rfl := Kernel.endChecks_last hpre.symm
      have hct := passed_add_count hg t
      have hcu := passed_add_count hg (K.tid u)
      have hs := hsame t (K.tid u)
      have hle := hmin _ (Kernel.tid_lt_size hu.mem)
      have hpos : 0 < (g.thread (K.tid u)).stmts.count .barrier :=
        List.count_pos_iff.mpr (List.mem_of_mem_head? hb)
      rw [hst] at hct
      simp only [List.count_cons_of_ne (by decide : Stmt.endChecks ≠ .barrier),
        List.count_nil] at hct
      omega

end Passing

/-! ## Straight-line programs -/

/-- A statement of a straight-line program, as the messages see it: a
message node of a thread, or a statement that emits barriers. -/
inductive Item
  | message (tid : ℕ)
  /-- `StatementComm`. -/
  | comm
  /-- `StatementAtomicReduction`. -/
  | reduction
  /-- `StatementBarrier` with its gate open. -/
  | gated
deriving DecidableEq

/-- The options a statement is generated under. -/
def Item.enabled (o : CLOptions) : Item → Bool
  | .message _ => o.messagePassing
  | .comm => o.interThreadComm
  | .reduction => o.atomicReductions
  | .gated => o.barriers && o.divergence

/-- The threads of the message nodes, in the order they are registered. -/
def messageTids : List Item → List ℕ
  | [] => []
  | .message tid :: is => tid :: messageTids is
  | _ :: is => messageTids is

/-- What each thread runs, `node` being the next node's id. -/
def program (node : ℕ) : List Item → List Stmt
  | [] => []
  | .message _ :: is => .visit node :: program (node + 1) is
  | .comm :: is => .barrier :: program node is
  | .reduction :: is => .barrier :: .barrier :: program node is
  | .gated :: is => .barrier :: .barrier :: program node is

theorem endChecks_notMem_program (node : ℕ) (is : List Item) :
    Stmt.endChecks ∉ program node is := by
  induction is generalizing node with
  | nil => simp [program]
  | cons i is ih => cases i <;> simp [program, ih]

/-- **A straight-line program under accepted options**, with an ordering
`CreateOrdering` draws for its nodes. -/
structure Line where
  opts : CLOptions
  accepted : opts.conflict = false
  items : List Item
  enabled : ∀ i ∈ items, i.enabled opts
  size : ℕ
  tid_lt : ∀ n < (messageTids items).length, tidOf (messageTids items) n < size
  order : List Entry
  generated : ∃ t t', createOrdering (messageTids items) t = some (order, t')
  addr : Flag → ℕ

namespace Line

variable (L : Line)

/-- Every thread of the group runs the program. -/
def kernel : Kernel where
  size := L.size
  nodes := messageTids L.items
  tid_lt := L.tid_lt
  order := L.order
  generated := L.generated
  addr := L.addr
  body _ := program 0 L.items
  body_end _ := endChecks_notMem_program 0 L.items

/-- How many barriers stand before a node. -/
def phase (n : ℕ) : ℕ := ((program 0 L.items).takeWhile fun st => st ≠ .visit n).count .barrier

/-- **The ordering goes along with the barriers**: no node comes before
one that stands fewer barriers into the program. -/
def Phased : Prop := ∀ m ∈ L.order.flatMap Entry.ids, ∀ n ∈ L.order.flatMap Entry.ids,
  L.kernel.stepIndex m < L.kernel.stepIndex n → L.phase m ≤ L.phase n

end Line

/-- Thread `t` is in the wait loop of node `v`. -/
def Group.InLoop (g : Group) (t v : ℕ) : Prop :=
  (g.thread t).stmts.head? = some (.visit v) ∧ (g.thread t).loop ≠ none

/-- **A hang**: thread `t` is in the wait loop of node `v` whatever the
group does from here, an earlier node `w` has not signalled, and the thread
of `w` is at a barrier `t` has not come to. -/
def Kernel.Hung (K : Kernel) (g : Group) : Prop :=
  ∃ t < K.size, ∃ v w, (∀ g', K.system.Reaches g g' → g'.InLoop t v) ∧
    w ∈ K.order.flatMap Entry.ids ∧ K.stepIndex w < K.stepIndex v ∧ w ∉ g.signals ∧
    (g.thread (K.tid w)).stmts.head? = some .barrier ∧
    (g.thread t).passed ≤ (g.thread (K.tid w)).passed

section Phases

variable {L : Line} {g g' : Group} {t m n : ℕ} {is : List Item}

/-- The visits of a program are of the ids from `k` on, in their order. -/
theorem visits_program (k : ℕ) (is : List Item) : (program k is).filterMap (fun st =>
    match st with | .visit n => some n | _ => none) =
      List.range' k (messageTids is).length := by
  induction is generalizing k with
  | nil => rfl
  | cons i is ih =>
    cases i with
    | message tid => simp [program, messageTids, List.range'_succ, ih]
    | comm => simpa [program, messageTids] using ih k
    | reduction => simpa [program, messageTids] using ih k
    | gated => simpa [program, messageTids] using ih k

theorem Line.stmts_eq : L.kernel.stmts t = program 0 L.items ++ [.endChecks] := rfl

/-- Every node is visited. -/
theorem Line.visit_mem (hn : n < (messageTids L.items).length) :
    Stmt.visit n ∈ program 0 L.items := by
  have h : n ∈ (program 0 L.items).filterMap (fun st =>
      match st with | .visit n => some n | _ => none) := by
    rw [visits_program]
    simp [hn]
  obtain ⟨st, hst, he⟩ := List.mem_filterMap.mp h
  cases st with
  | visit k =>
    obtain rfl : k = n := Option.some.inj he
    exact hst
  | barrier => cases he
  | endChecks => cases he

/-- What is visited before a node is of a lower id. -/
theorem Line.lt_of_before {p q : List Stmt} (h : L.kernel.stmts t = p ++ .visit n :: q)
    (hm : Stmt.visit m ∈ p) : m < n := by
  have hv := visits_program 0 L.items
  have hall : (L.kernel.stmts t).filterMap (fun st =>
      match st with | .visit n => some n | _ => none) =
        List.range' 0 (messageTids L.items).length := by
    rw [Line.stmts_eq, List.filterMap_append, hv]
    simp
  rw [h, List.filterMap_append] at hall
  have hsorted : (List.range' 0 (messageTids L.items).length).Pairwise (· < ·) :=
    List.pairwise_lt_range'
  rw [← hall, List.pairwise_append] at hsorted
  refine hsorted.2.2 m ?_ n (by simp)
  exact List.mem_filterMap.mpr ⟨_, hm, rfl⟩

/-- The barriers before a node, in the program with its end checks. -/
theorem Line.phase_eq (hn : n ∈ L.kernel.relay.nodes) : L.phase n =
    ((L.kernel.stmts t).takeWhile fun st => st ≠ .visit n).count .barrier := by
  obtain ⟨p, q, he⟩ := List.append_of_mem (L.visit_mem (L.kernel.lt_length hn))
  have key : ∀ (p q : List Stmt), ((p ++ .visit n :: q).takeWhile fun st => st ≠ .visit n) =
      p.takeWhile fun st => st ≠ .visit n := by
    intro p q
    induction p with
    | nil => simp
    | cons a p ih => simp only [List.cons_append, List.takeWhile_cons, ih]
  rw [Line.phase, Line.stmts_eq, he, List.append_assoc, List.cons_append, key, key]

/-- Up to a node at or before the head of a rest, there are no more
barriers than before that rest. -/
theorem count_takeWhile_le {pre rest : List Stmt}
    (h : Stmt.visit n ∈ pre ∨ rest.head? = some (.visit n)) :
    ((pre ++ rest).takeWhile fun st => st ≠ .visit n).count .barrier ≤ pre.count .barrier := by
  induction pre with
  | nil =>
    have hhead := h.resolve_left (by simp)
    cases rest with
    | nil => cases hhead
    | cons a rest =>
      obtain rfl : a = .visit n := Option.some.inj hhead
      simp
  | cons a pre ih =>
    rw [List.cons_append, List.takeWhile_cons]
    split
    · next hne =>
      have hne : a ≠ .visit n := by simpa using hne
      have := ih (h.imp_left fun hmem => (List.mem_cons.mp hmem).resolve_left hne.symm)
      simp only [List.count_cons]
      omega
    · simp

/-- Up to a node that stands in a rest, there are the barriers before it. -/
theorem takeWhile_append_visit {pre rest : List Stmt} (h : Stmt.visit n ∉ pre) :
    ((pre ++ rest).takeWhile fun st => st ≠ .visit n) =
      pre ++ rest.takeWhile fun st => st ≠ .visit n :=
  List.takeWhile_append_of_pos fun st hst => by simpa using ne_of_mem_of_not_mem hst h

/-- The barriers passed are those before what is left. -/
theorem passed_eq_count {K : Kernel} {g : Group} (hg : K.system.Reachable g) {pre : List Stmt}
    (hpre : pre ++ (g.thread t).stmts = K.stmts t) :
    (g.thread t).passed = pre.count .barrier := by
  have := passed_add_count hg t
  rw [← hpre, List.count_append] at this
  omega

/-- A thread at a node has passed the barriers before it. -/
theorem Line.phase_le_of_head (hg : L.kernel.system.Reachable g) (hn : n ∈ L.kernel.relay.nodes)
    (hhead : (g.thread t).stmts.head? = some (.visit n)) : L.phase n ≤ (g.thread t).passed := by
  obtain ⟨pre, hpre⟩ := stmts_suffix hg t
  rw [passed_eq_count hg hpre, Line.phase_eq (t := t) hn, ← hpre]
  exact count_takeWhile_le (.inr hhead)

/-- **A node that has signalled** has its thread past the barriers before
it: neither a later node nor the end checks come sooner. -/
theorem Line.phase_le_of_signalled (hg : L.kernel.system.Reachable g) (hn : n ∈ g.signals)
    (ht : L.kernel.tid n = t) : L.phase n ≤ (g.thread t).passed := by
  have hi := reachable_inv hg
  have hS := List.mem_toFinset.mpr hn
  have hR := hi.front.subset hS
  obtain ⟨pre, hpre⟩ := stmts_suffix hg t
  rw [passed_eq_count hg hpre, Line.phase_eq (t := t) hR, ← hpre]
  obtain ⟨done, todo, mid, hh, hdone⟩ := (hi.thread t).history_of_split hpre.symm
  have hmem : Stmt.visit n ∈ done := by
    have hv : Stmt.visit n ∈ L.kernel.stmts t := by
      rw [Line.stmts_eq]
      exact List.mem_append_left _ (L.visit_mem (L.kernel.lt_length hR))
    rw [hh.program] at hv
    refine (List.mem_append.mp hv).resolve_right fun hmem => ?_
    -- a visit still to come is a fresh one
    obtain ⟨p, q, he⟩ := List.append_of_mem hmem
    refine hh.ahead p n q he hR ht (fun m hm _ _ => ?_) hS
    have hprog : L.kernel.stmts t = (done ++ p) ++ .visit n :: q := by
      rw [hh.program, he]
      simp
    exact L.lt_of_before hprog hm
  rcases hdone with rfl | ⟨k, rfl, hst⟩
  · exact count_takeWhile_le (.inl hmem)
  · refine count_takeWhile_le ((List.mem_append.mp hmem).imp_right fun hk => ?_)
    obtain rfl : n = k := by simpa using hk
    rw [hst]
    rfl

/-- A node that has not signalled is not among what its thread is through
with. -/
theorem notMem_before {K : Kernel} {g : Group} (hg : K.system.Reachable g)
    (hn : n ∈ K.relay.nodes) (hfresh : n ∉ g.signals) (ht : K.tid n = t) {pre : List Stmt}
    (hpre : pre ++ (g.thread t).stmts = K.stmts t) : Stmt.visit n ∉ pre := by
  intro hmem
  obtain ⟨done, todo, mid, hh, hdone⟩ :=
    ((reachable_inv hg).thread t).history_of_split hpre.symm
  refine hfresh (List.mem_toFinset.mp (hh.visited n ?_ hn ht))
  rcases hdone with rfl | ⟨k, rfl, -⟩
  · exact hmem
  · exact List.mem_append_left _ hmem

/-- **A node that has not signalled** has its thread before it: at a
barrier the thread has passed fewer than stand before the node. -/
theorem Line.lt_phase_of_barrier (hg : L.kernel.system.Reachable g)
    (hn : n ∈ L.kernel.relay.nodes) (hfresh : n ∉ g.signals) (ht : L.kernel.tid n = t)
    (hbar : (g.thread t).stmts.head? = some .barrier) : (g.thread t).passed < L.phase n := by
  obtain ⟨pre, hpre⟩ := stmts_suffix hg t
  have hmem := notMem_before hg hn hfresh ht hpre
  rw [passed_eq_count hg hpre, Line.phase_eq (t := t) hn, ← hpre]
  cases hst : (g.thread t).stmts with
  | nil =>
    rw [hst] at hbar
    cases hbar
  | cons st rest =>
    rw [hst] at hbar
    obtain rfl : st = .barrier := Option.some.inj hbar
    rw [takeWhile_append_visit hmem, List.count_append, List.takeWhile_cons, if_pos (by simp),
      List.count_cons_self]
    omega

/-- And wherever it is it has passed no more than stand before the node. -/
theorem Line.passed_le_phase (hg : L.kernel.system.Reachable g)
    (hn : n ∈ L.kernel.relay.nodes) (hfresh : n ∉ g.signals) (ht : L.kernel.tid n = t) :
    (g.thread t).passed ≤ L.phase n := by
  obtain ⟨pre, hpre⟩ := stmts_suffix hg t
  have hmem := notMem_before hg hn hfresh ht hpre
  rw [passed_eq_count hg hpre, Line.phase_eq (t := t) hn, ← hpre]
  rw [takeWhile_append_visit hmem, List.count_append]
  omega

end Phases

/-! ## When it hangs -/

section Hang

variable {L : Line} {g : Group} {t u v m n : ℕ}

theorem Line.same_barriers (t u : ℕ) :
    (L.kernel.stmts t).count .barrier = (L.kernel.stmts u).count .barrier := rfl

/-- Where the ordering goes along with the barriers no thread waits in vain. -/
theorem Line.Phased.not_stuck (h : L.Phased) (hg : L.kernel.system.Reachable g) :
    ¬ Stuck L.kernel g t v u := by
  intro hs
  have hle := h u (Kernel.mem_relay_ids.mp hs.turn.mem) v (Kernel.mem_relay_ids.mp hs.mem)
    (by rw [← Kernel.relay_step, ← Kernel.relay_step]; exact hs.step)
  have h1 := Line.phase_le_of_head hg hs.mem hs.head
  have h2 := Line.lt_phase_of_barrier hg hs.turn.mem
    (fun hmem => hs.turn.fresh (List.mem_toFinset.mpr hmem)) rfl hs.barrier
  have h3 := hs.behind
  omega

/-- **Where the ordering goes along with the barriers the group finishes**,
so it does not hang. -/
theorem Line.Phased.not_hung (h : L.Phased) (hg : L.kernel.system.Reachable g) :
    ¬ L.kernel.Hung g := by
  rintro ⟨t, ht, v, w, hloop, -⟩
  obtain ⟨g', hr, hfin⟩ : ∃ g', L.kernel.system.Reaches g g' ∧ L.kernel.Finished g' := by
    refine System.exists_reaches_final done_mono_step (fun _ h => done_le h)
      (fun s hs hfin => ?_) hg
    rcases progress_or_stuck hs Line.same_barriers hfin with hprog | ⟨t, v, u, hstuck⟩
    · exact hprog
    · exact absurd hstuck (h.not_stuck hs)
  have hhead := (hloop g' hr).1
  rw [hfin t ht] at hhead
  cases hhead

/-- **A node ordered before one of fewer barriers never signals**: it would
have to wait for a barrier the later node's thread passes only after. -/
theorem Line.never_signalled (hm : m ∈ L.kernel.relay.nodes) (hn : n ∈ L.kernel.relay.nodes)
    (hstep : L.kernel.relay.step m < L.kernel.relay.step n) (hphase : L.phase n < L.phase m)
    (hg : L.kernel.system.Reachable g) : m ∉ g.signals ∧ n ∉ g.signals := by
  -- of the two neither has signalled without the other
  have hiff : ∀ g, L.kernel.system.Reachable g → (m ∈ g.signals ↔ n ∈ g.signals) := by
    intro g hg
    refine ⟨fun hmS => ?_, fun hnS => ?_⟩
    · by_contra hnS
      have h1 := Line.phase_le_of_signalled hg hmS rfl
      have h2 := Line.passed_le_phase hg hn hnS rfl
      rcases passed_le hg (Kernel.tid_lt_size hm) (Kernel.tid_lt_size hn) with h | ⟨h, hbar⟩
      · omega
      · have h3 := Line.lt_phase_of_barrier hg hn hnS rfl hbar
        omega
    · exact List.mem_toFinset.mp ((reachable_inv hg).front.closed n (List.mem_toFinset.mpr hnS)
        m hm hstep)
  refine hg.invariant (I := fun g => m ∉ g.signals ∧ n ∉ g.signals) (fun s hs => ?_)
    (fun s s' hs hi hstep' => ?_)
  · obtain rfl : s = L.kernel.start := hs
    simp [Kernel.start, Group.signals]
  · have hs' := hs.step hstep'
    obtain ⟨x, -, hx⟩ := hstep'
    have hboth : ¬ (m ∈ s'.signals ∧ n ∈ s'.signals) := by
      rintro ⟨hmS, hnS⟩
      rcases stepThread_signals hx with ⟨he, -⟩ | ⟨k, he⟩
      · rw [he] at hmS
        exact hi.1 hmS
      · -- one step makes one signal
        rw [he, List.mem_append, List.mem_singleton] at hmS hnS
        have hmk := hmS.resolve_left hi.1
        have hnk := hnS.resolve_left hi.2
        rw [hmk, hnk] at hstep
        exact Nat.lt_irrefl _ hstep
    have hiff' := hiff s' hs'
    tauto

/-- A thread that waits in vain comes into the loop of its node. -/
theorem Stuck.enter {K : Kernel} (h : Stuck K g t v u) :
    ∃ g', K.system.Reaches g g' ∧ Stuck K g' t v u ∧ (g'.thread t).loop ≠ none := by
  by_cases hloop : (g.thread t).loop = none
  · cases hst : (g.thread t).stmts with
    | nil =>
      have := h.head
      rw [hst] at this
      cases this
    | cons st rest =>
      have hhead := h.head
      rw [hst] at hhead
      obtain rfl : st = .visit v := Option.some.inj hhead
      have hne : K.loopOf t (.visit v) ≠ [] := by
        obtain ⟨unlocks, lock, hc⟩ := Kernel.exists_nodeCode h.mem
        rw [Kernel.loopOf, if_pos h.tid]
        exact hc.ne_nil
      have hstep : K.stepThread g t = some (g.setThread t
          ⟨.visit v :: rest, some (MessagePassing.enter (K.loopOf t (.visit v))),
            (g.thread t).passed⟩) := by
        unfold Kernel.stepThread
        simp only [hst, hloop, if_neg hne]
        rfl
      refine ⟨_, System.Reaches.single ⟨t, h.lt_size, hstep⟩, ?_, by simp⟩
      have htu : K.tid u ≠ t := by
        intro he
        have hb := h.barrier
        rw [he, h.head] at hb
        cases hb
      refine ⟨h.lt_size, by simp, h.mem, h.tid, h.fresh, h.turn, h.step, ?_, ?_⟩
      · rw [Group.setThread_thread_of_ne htu]
        exact h.barrier
      · rw [Group.setThread_thread_of_ne htu, Group.setThread_thread_self]
        exact h.behind
  · exact ⟨g, System.Reaches.refl, h, hloop⟩

/-- A group that comes no further leaves a thread in its loop. -/
theorem inLoop_of_plateau {K : Kernel} (hg : K.system.Reachable g) (ht : t < K.size)
    (hflat : ∀ g', K.system.Reaches g g' → K.done g' = K.done g) (hin : g.InLoop t v)
    {g' : Group} (hr : K.system.Reaches g g') : g'.InLoop t v := by
  have key : K.system.Reaches g g' ∧ g'.InLoop t v := by
    refine hr.preserves (I := fun x => K.system.Reaches g x ∧ x.InLoop t v) hg
      (fun s s' hs ⟨hgs, hhead, hloop⟩ hstep => ?_) ⟨System.Reaches.refl, hin⟩
    have hgs' := hgs.tail hstep
    refine ⟨hgs', ?_⟩
    obtain ⟨x, -, hx⟩ := hstep
    rcases eq_or_ne t x with rfl | hne
    · obtain ⟨st, rest, hst, hcase⟩ := Kernel.stepThread_cases hx
      rcases hcase with ⟨pos, o, hpos, rfl, hnext⟩ | ⟨hpos, -⟩ | ⟨hpos, -⟩ | ⟨hpos, -⟩
      · rcases hnext with ⟨-, rfl⟩ | ⟨pos', -, rfl⟩
        · -- leaving the loop would bring the group on
          have hlt := done_lt hs ht hx (.inr (by simp [hst]))
          rw [hflat _ hgs, hflat _ hgs'] at hlt
          exact absurd hlt (Nat.lt_irrefl _)
        · rw [hst] at hhead
          exact ⟨by simpa using hhead, by simp⟩
      all_goals exact absurd hpos hloop
    · have hother := (stepThread_stmts hx).1 t hne
      exact ⟨by rw [hother]; exact hhead, by rw [hother]; exact hloop⟩
  exact key.2

/-- **Where the ordering goes against the barriers some run hangs.** -/
theorem Line.exists_hung (h : ¬ L.Phased) :
    ∃ g, L.kernel.system.Reachable g ∧ L.kernel.Hung g := by
  unfold Line.Phased at h
  push Not at h
  obtain ⟨m, hm, n, hn, hstep, hphase⟩ := h
  have hm := Kernel.mem_relay_ids (K := L.kernel).mpr hm
  have hn := Kernel.mem_relay_ids (K := L.kernel).mpr hn
  rw [← Kernel.relay_step, ← Kernel.relay_step] at hstep
  have hstart : L.kernel.system.Reachable L.kernel.start := System.Reachable.init rfl
  obtain ⟨g, hr, hflat⟩ := System.exists_plateau done_mono_step (fun _ h => done_le h) hstart
  have hg := hstart.reaches hr
  have hfin : ¬ L.kernel.Finished g := fun hfin =>
    (Line.never_signalled hm hn hstep hphase hg).1 (List.mem_toFinset.mp
      (((reachable_inv hg).thread _).mem_of_nil (hfin _ (Kernel.tid_lt_size hm)) hm rfl))
  rcases progress_or_stuck hg Line.same_barriers hfin with ⟨g', hr', hlt⟩ | ⟨t, v, u, hs⟩
  · rw [hflat g' hr'] at hlt
    exact absurd hlt (Nat.lt_irrefl _)
  · obtain ⟨g', hr', hs', hloop⟩ := hs.enter
    have hg' := hg.reaches hr'
    refine ⟨g', hg', t, hs'.lt_size, v, u, fun g'' hr'' => ?_,
      Kernel.mem_relay_ids.mp hs'.turn.mem, ?_,
      fun hmem => hs'.turn.fresh (List.mem_toFinset.mpr hmem), hs'.barrier, hs'.behind⟩
    · refine inLoop_of_plateau hg' hs'.lt_size (fun x hx => ?_) ⟨hs'.head, hloop⟩ hr''
      rw [hflat x (hr'.trans hx), hflat g' hr']
    · rw [← Kernel.relay_step, ← Kernel.relay_step]
      exact hs'.step

/-- **When message passing next to barriers does not hang**: exactly when the ordering
drawn goes along with the barriers of the program, that is, puts no node in front of
one with fewer barriers before it. -/
theorem messages_barriers_iff (L : Line) :
    (∀ g, L.kernel.system.Reachable g → ¬ L.kernel.Hung g) ↔ L.Phased := by
  refine ⟨fun h => ?_, fun h g hg => h.not_hung hg⟩
  by_contra hp
  obtain ⟨g, hg, hhung⟩ := Line.exists_hung hp
  exact h g hg hhung

/-- Two message nodes with a barrier between them, of two threads, under
message passing and inter-thread communication. The ordering drawn has the
second node first. -/
def crossedLine : Line where
  opts := { messagePassing := true, interThreadComm := true }
  accepted := rfl
  items := [.message 0, .comm, .message 1]
  enabled := by decide
  size := 2
  tid_lt := by decide
  order := [⟨1, none⟩, ⟨0, none⟩]
  generated := ⟨[1, 99, 0], [], rfl⟩
  addr
    | .f1 => 0
    | .f2 => 1
    | .f3 => 2
    | .f4 => 3

/-- **Message passing with inter-thread communication can hang.** -/
theorem not_forall_not_hung :
    ¬ ∀ L : Line, ∀ g, L.kernel.system.Reachable g → ¬ L.kernel.Hung g := by
  intro h
  have hp : ¬ crossedLine.Phased := fun hp =>
    absurd (hp 1 (by decide) 0 (by decide) (by decide)) (by decide)
  obtain ⟨g, hg, hhung⟩ := Line.exists_hung hp
  exact h _ g hg hhung

end Hang

end MessagePassing

end CLSmith
