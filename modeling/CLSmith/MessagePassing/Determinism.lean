import CLSmith.MessagePassing.Invariant
/-!
# The updates do not depend on the interleaving

The invariant of the whole group, and what it gives over a run: the nodes
whose constraints hold are of one step, a node signals and updates once,
and the updates come in the order of the steps. Which nodes update is read
off the threads' programs (`expectedUpdates`): a thread updates at the
nodes it visits before any later one of its own.
-/

namespace CLSmith

namespace MessagePassing

open Common

/-! ## The log -/

namespace Group

variable (g : Group)

/-- The signals made so far, in their order. -/
def signals : List ℕ := g.log.filterMap fun e =>
  match e.2 with
  | .signal n => some n
  | .update _ => none

/-- The updates made so far, in their order. -/
def updates : List ℕ := g.log.filterMap fun e =>
  match e.2 with
  | .update n => some n
  | .signal _ => none

variable {g} {t u n : ℕ} {c : Constraint} {th : Thread}

@[simp] theorem setThread_flags : (g.setThread t th).flags = g.flags := rfl

@[simp] theorem setThread_log : (g.setThread t th).log = g.log := rfl

@[simp] theorem setThread_signals : (g.setThread t th).signals = g.signals := rfl

@[simp] theorem setThread_updates : (g.setThread t th).updates = g.updates := rfl

@[simp] theorem setThread_thread_self : (g.setThread t th).thread t = th :=
  Function.update_self _ _ _

theorem setThread_thread_of_ne (h : u ≠ t) : (g.setThread t th).thread u = g.thread u :=
  Function.update_of_ne h _ _

@[simp] theorem perform_thread {e : Effect} : (g.perform t e).thread = g.thread := by
  cases e <;> rfl

@[simp] theorem signals_signal : (g.perform t (.signal n c)).signals = g.signals ++ [n] := by
  simp [perform, signals]

@[simp] theorem updates_signal : (g.perform t (.signal n c)).updates = g.updates := by
  simp [perform, updates]

@[simp] theorem flags_update : (g.perform t (.update n)).flags = g.flags := rfl

@[simp] theorem signals_update : (g.perform t (.update n)).signals = g.signals := by
  simp [perform, signals]

@[simp] theorem updates_update : (g.perform t (.update n)).updates = g.updates ++ [n] := by
  simp [perform, updates]

end Group

/-! ## The invariant -/

/-- **The invariant of the group.** The nodes that have signalled are a front of the
relay, the flags are where these have brought them, and updates were made in the order
of the steps. -/
structure Inv (K : Kernel) (g : Group) : Prop where
  front : K.relay.Front g.signals.toFinset
  count : ∀ f, g.flags f = K.relay.count g.signals.toFinset f
  thread : ∀ t, Local K g.signals.toFinset g.updates.toFinset t (g.thread t)
  own_signal : ∀ t n, (t, Event.signal n) ∈ g.log → K.tid n = t
  own_update : ∀ t n, (t, Event.update n) ∈ g.log → K.tid n = t
  nodup_signals : g.signals.Nodup
  nodup_updates : g.updates.Nodup
  turn_updates : ∀ n ∈ g.updates, n ∈ g.signals ∨ K.relay.Turn g.signals.toFinset n
  sorted_updates : g.updates.Pairwise fun m n => K.relay.step m ≤ K.relay.step n

variable {K : Kernel} {g g' : Group} {t m n : ℕ}

theorem inv_start : Inv K K.start := by
  refine ⟨Relay.front_empty, fun f => ?_, fun t => local_start, ?_, ?_, ?_, ?_, ?_, ?_⟩
  · simp [Kernel.start, Group.signals, Relay.count]
  all_goals simp [Kernel.start, Group.signals, Group.updates]

/-- What a thread's step leaves alone: a thread moved to another place, all
else as it was. -/
theorem Inv.setThread (h : Inv K g) {th : Thread}
    (hth : Local K g.signals.toFinset g.updates.toFinset t th) : Inv K (g.setThread t th) := by
  refine ⟨h.front, h.count, fun u => ?_, h.own_signal, h.own_update, h.nodup_signals,
    h.nodup_updates, h.turn_updates, h.sorted_updates⟩
  rcases eq_or_ne u t with rfl | hne
  · rw [Group.setThread_thread_self]
    exact hth
  · rw [Group.setThread_thread_of_ne hne]
    exact h.thread u

/-- An update in its turn comes after those made. -/
theorem Inv.step_le (h : Inv K g) (hn : K.relay.Turn g.signals.toFinset n) (hm : m ∈ g.updates) :
    K.relay.step m ≤ K.relay.step n := by
  rcases h.turn_updates m hm with hmS | hmT
  · exact h.front.step_le hn.mem hn.fresh (List.mem_toFinset.mpr hmS)
  · exact (hmT.step_eq hn).le

/-- **The invariant survives a step in a loop.** -/
theorem Inv.perform (h : Inv K g) {e : Effect} {th : Thread}
    (hstep : LocalStep K g.signals.toFinset g.updates.toFinset t e th) :
    Inv K ((g.perform t e).setThread t th) := by
  cases hstep with
  | quiet hth => exact h.setThread hth
  -- an update raises no flag: only the log and the updates grow
  | @update n _ ht hturn hU hth =>
    have hnU : n ∉ g.updates := fun hmem => hU (List.mem_toFinset.mpr hmem)
    have hset : (g.updates ++ [n]).toFinset = insert n g.updates.toFinset := by
      ext m
      simp
    refine ⟨by simpa using h.front, by simpa using h.count, fun u => ?_, fun u m hm => ?_,
      fun u m hm => ?_, by simpa using h.nodup_signals, ?_, ?_, ?_⟩
    · simp only [Group.setThread_signals, Group.setThread_updates, Group.signals_update,
        Group.updates_update, hset]
      rcases eq_or_ne u t with rfl | hne
      · rw [Group.setThread_thread_self]
        exact hth
      · rw [Group.setThread_thread_of_ne hne, Group.perform_thread]
        exact (h.thread u).otherUpdate (ht ▸ hne.symm)
    · exact h.own_signal u m (by simpa [Group.perform] using hm)
    · have hm : (u, Event.update m) ∈ g.log ∨ u = t ∧ m = n := by
        simpa [Group.perform] using hm
      rcases hm with hm | ⟨rfl, rfl⟩
      · exact h.own_update u m hm
      · exact ht
    · simpa using h.nodup_updates.concat hnU
    · intro m hm
      simp only [Group.setThread_updates, Group.updates_update, List.mem_append,
        List.mem_singleton] at hm
      simp only [Group.setThread_signals, Group.signals_update]
      rcases hm with hm | rfl
      · exact h.turn_updates m hm
      · exact .inr hturn
    · simp only [Group.setThread_updates, Group.updates_update, List.pairwise_append]
      refine ⟨h.sorted_updates, by simp, fun m hm m' hm' => ?_⟩
      obtain rfl : m' = n := by simpa using hm'
      exact h.step_le hturn hm
  -- a signal moves the front on, and raises the flag of its node by one
  | @signal n _ ht hturn hth =>
    have hnS : n ∉ g.signals := fun hmem => hturn.fresh (List.mem_toFinset.mpr hmem)
    have hset : (g.signals ++ [n]).toFinset = insert n g.signals.toFinset := by
      ext m
      simp
    refine ⟨?_, fun f => ?_, fun u => ?_, fun u m hm => ?_, fun u m hm => ?_, ?_,
      by simpa using h.nodup_updates, ?_, by simpa using h.sorted_updates⟩
    · simpa [hset] using h.front.take hturn
    · simp only [Group.setThread_flags, Group.setThread_signals, Group.signals_signal, hset]
      rw [Relay.count_insert hturn.fresh, ← h.count f]
      by_cases hf : K.relay.flag n = f
      · subst hf
        rw [if_pos rfl, h.count, hturn.count_succ h.front]
        exact Function.update_self _ _ _
      · rw [if_neg hf]
        exact Function.update_of_ne (Ne.symm hf) _ _
    · simp only [Group.setThread_signals, Group.setThread_updates, Group.signals_signal,
        Group.updates_signal, hset]
      rcases eq_or_ne u t with rfl | hne
      · rw [Group.setThread_thread_self]
        exact hth
      · rw [Group.setThread_thread_of_ne hne, Group.perform_thread]
        exact (h.thread u).otherSignal h.front hturn (ht ▸ hne.symm)
    · have hm : (u, Event.signal m) ∈ g.log ∨ u = t ∧ m = n := by
        simpa [Group.perform] using hm
      rcases hm with hm | ⟨rfl, rfl⟩
      · exact h.own_signal u m hm
      · exact ht
    · exact h.own_update u m (by simpa [Group.perform] using hm)
    · simpa using h.nodup_signals.concat hnS
    · intro m hm
      simp only [Group.setThread_updates, Group.updates_signal] at hm
      simp only [Group.setThread_signals, Group.signals_signal, List.mem_append,
        List.mem_singleton, hset]
      rcases h.turn_updates m hm with hmS | hmT
      · exact .inl (.inl hmS)
      · rcases eq_or_ne n m with rfl | hne
        · exact .inl (.inr rfl)
        · exact .inr (hmT.keep hne)

/-- **Every step keeps the invariant.** -/
theorem Inv.step (h : Inv K g) (hstep : K.stepThread g t = some g') : Inv K g' := by
  obtain ⟨st, rest, hst, hcase⟩ := Kernel.stepThread_cases hstep
  rcases hcase with ⟨pos, o, hpos, rfl, hnext⟩ | ⟨hpos, -, hnil, rfl⟩ | ⟨hpos, -, hne, rfl⟩ |
    ⟨hpos, rfl, -, rfl⟩
  · have hl := (h.thread t).step h.front h.count hst hpos
    rcases hnext with ⟨hn, rfl⟩ | ⟨pos', hn, rfl⟩
    · rw [hn] at hl
      exact h.perform hl
    · rw [hn, Thread.next, hst] at hl
      exact h.perform hl
  · exact h.setThread ((h.thread t).skip hpos hst hnil)
  · exact h.setThread ((h.thread t).enter hpos hst hne)
  · exact h.setThread ((h.thread t).skip hpos hst rfl)

/-- **The invariant holds in every run.** -/
theorem reachable_inv (h : K.system.Reachable g) : Inv K g := by
  refine h.invariant (I := Inv K) (fun s hs => ?_) fun s s' _ hi hstep => ?_
  · obtain rfl : s = K.start := hs
    exact inv_start
  · obtain ⟨t, -, hstep⟩ := hstep
    exact hi.step hstep

/-! ## One step at a time -/

/-- The constraints `MakeWait` had for `n` hold: its loop would go on to the
update. -/
def Kernel.MayUpdate (K : Kernel) (g : Group) (n : ℕ) : Prop :=
  ∃ unlocks lock, K.code.waits n = some (unlocks, lock) ∧ ∀ c ∈ lock.checks, g.flags c.1 = c.2

/-- The constraints of a node hold only in its turn. -/
theorem Inv.turn_of_mayUpdate (h : Inv K g) (hn : K.MayUpdate g n) :
    K.relay.Turn g.signals.toFinset n := by
  obtain ⟨unlocks, lock, hw, hall⟩ := hn
  obtain ⟨L₁, L₂, hL, -⟩ := waits_eq_some hw
  have hmem : (n, lock) ∈ K.locks := by
    rw [hL]
    simp
  refine (h.front.checks_iff_turn (Kernel.mem_relay.mpr ⟨lock, hmem⟩)).mp fun c hc => ?_
  rw [← h.count, hall c (Kernel.relay_checks hmem ▸ hc)]

/-- The place of a node's entry in the ordering. -/
def Kernel.stepIndex (K : Kernel) (n : ℕ) : ℕ := K.order.findIdx fun e => decide (n ∈ e.ids)

/-- The entries of the ordering are the steps of the relay. -/
theorem Kernel.relay_step : K.relay.step n = K.stepIndex n := by
  have hids : ∀ (s : FlagState) (order : List Entry),
      (orderLocks K.addr s order).map (·.map Prod.fst) = order.map Entry.ids := by
    intro s order
    induction order generalizing s with
    | nil => rfl
    | cons e es ih => simp [orderLocks, ih, stepLocks_ids]
  have hl : ∀ E : List (List (ℕ × Lock)),
      Leg.stepOf (legs E) n = (E.map (·.map Prod.fst)).findIdx fun ids => decide (n ∈ ids) := by
    intro E
    rw [Leg.stepOf, legs, List.findIdx_map, List.findIdx_map]
    congr 1
    funext st
    induction st with
    | nil => rfl
    | cons x st ih =>
      simp only [Function.comp, List.map_cons, List.any_cons, List.mem_cons] at ih ⊢
      rw [ih]
      simp [legOf, eq_comm]
  refine (hl _).trans ?_
  rw [hids, List.findIdx_map]
  rfl

/-- An ordered node's entry is the one at its place. -/
theorem Kernel.mem_entry (hn : n ∈ K.relay.nodes) :
    ∃ e, K.order[K.stepIndex n]? = some e ∧ n ∈ e.ids := by
  obtain ⟨e, he, hne⟩ := List.mem_flatMap.mp (Kernel.mem_relay_ids.mp hn)
  have hlt : K.stepIndex n < K.order.length :=
    List.findIdx_lt_length_of_exists ⟨e, he, by simpa using hne⟩
  refine ⟨K.order[K.stepIndex n], List.getElem?_eq_getElem hlt, ?_⟩
  exact of_decide_eq_true (List.findIdx_getElem (w := hlt))

/-- **The nodes whose constraints hold are of one step.** -/
theorem Inv.mayUpdate (h : Inv K g) (hm : K.MayUpdate g m) (hn : K.MayUpdate g n) :
    m ∉ g.signals ∧ ∃ e ∈ K.order, m ∈ e.ids ∧ n ∈ e.ids := by
  have htm := h.turn_of_mayUpdate hm
  have htn := h.turn_of_mayUpdate hn
  obtain ⟨e, he, hme⟩ := Kernel.mem_entry htm.mem
  obtain ⟨e', he', hne⟩ := Kernel.mem_entry htn.mem
  have hstep : K.stepIndex m = K.stepIndex n := by
    rw [← Kernel.relay_step, ← Kernel.relay_step]
    exact htm.step_eq htn
  obtain rfl : e = e' := by
    rw [hstep] at he
    exact Option.some.inj (he.symm.trans he')
  exact ⟨fun hmem => htm.fresh (List.mem_toFinset.mpr hmem), e, List.mem_of_getElem? he, hme, hne⟩

/-! ## Which nodes update -/

/-- The nodes thread `t` visits in `stmts` after no later node of its own;
`bound` is one more than the latest visited before. -/
def Kernel.firsts (K : Kernel) (t : ℕ) : List Stmt → ℕ → List ℕ
  | [], _ => []
  | .visit n :: rest, bound =>
    if n ∈ K.order.flatMap Entry.ids ∧ K.tid n = t ∧ bound ≤ n then n :: K.firsts t rest (n + 1)
    else K.firsts t rest bound
  | .barrier :: rest, bound => K.firsts t rest bound
  | .endChecks :: rest, bound => K.firsts t rest bound

/-- **The updates of a kernel**, in the order of its steps: the nodes of the ordering
that their thread comes to before it has come to a later node of its own. -/
def Kernel.expectedUpdates (K : Kernel) : List ℕ :=
  (K.order.flatMap Entry.ids).filter fun n => n ∈ K.firsts (K.tid n) (K.stmts (K.tid n)) 0

/-- **Equal up to swapping the two nodes of an asynchronous pair**: the
same nodes, at the same places of the ordering. -/
def Kernel.SameUpToPairs (K : Kernel) (l l' : List ℕ) : Prop :=
  l.Perm l' ∧ l.map K.stepIndex = l'.map K.stepIndex

/-- The places of an element in a list are its head and those in its tail. -/
theorem exists_split_cons {α : Type*} {a b : α} {l : List α} {P : List α → Prop} :
    (∃ p q, a :: l = p ++ b :: q ∧ P p) ↔
      a = b ∧ P [] ∨ ∃ p q, l = p ++ b :: q ∧ P (a :: p) := by
  constructor
  · rintro ⟨p, q, he, hp⟩
    cases p with
    | nil => exact .inl ⟨(List.cons.inj he).1, hp⟩
    | cons c p =>
      obtain ⟨rfl, hl⟩ := List.cons.inj he
      exact .inr ⟨p, q, hl, hp⟩
  · rintro (⟨rfl, hp⟩ | ⟨p, q, rfl, hp⟩)
    · exact ⟨[], l, rfl, hp⟩
    · exact ⟨a :: p, q, rfl, hp⟩

/-- A visit in between only matters where it is of an ordered node of the
thread. -/
theorem fresh_visit_cons {p : List Stmt} : Fresh K t (.visit m :: p) n ↔
    (m ∈ K.relay.nodes → K.tid m = t → m < n) ∧ Fresh K t p n := by
  simp [Fresh, or_imp, forall_and]

/-- The firsts are the fresh visits. -/
theorem Kernel.mem_firsts {stmts : List Stmt} {bound : ℕ} (hn : n ∈ K.relay.nodes)
    (ht : K.tid n = t) : n ∈ K.firsts t stmts bound ↔
      ∃ p q, stmts = p ++ .visit n :: q ∧ Fresh K t p n ∧ bound ≤ n := by
  induction stmts generalizing bound with
  | nil => simp [Kernel.firsts]
  | cons st rest ih =>
    rw [exists_split_cons]
    cases st with
    | visit m =>
      simp only [Kernel.firsts, ← Kernel.mem_relay_ids, Stmt.visit.injEq, fresh_visit_cons]
      split
      · next hm =>
        -- behind the visit of `m` only later nodes are fresh
        rw [List.mem_cons, ih]
        constructor
        · rintro (rfl | ⟨p, q, rfl, hf, hle⟩)
          · exact .inl ⟨rfl, by simp [Fresh], hm.2.2⟩
          · exact .inr ⟨p, q, rfl, ⟨fun _ _ => hle, hf⟩, by have := hm.2.2; omega⟩
        · rintro (⟨rfl, -, -⟩ | ⟨p, q, rfl, ⟨hlt, hf⟩, -⟩)
          · exact .inl rfl
          · exact .inr ⟨p, q, rfl, hf, hlt hm.1 hm.2.1⟩
      · next hm =>
        rw [ih]
        constructor
        · rintro ⟨p, q, rfl, hf, hle⟩
          refine .inr ⟨p, q, rfl, ⟨fun hmR hmt => ?_, hf⟩, hle⟩
          have : ¬ bound ≤ m := fun hle' => hm ⟨hmR, hmt, hle'⟩
          omega
        · rintro (⟨rfl, -, hle⟩ | ⟨p, q, rfl, ⟨-, hf⟩, hle⟩)
          · exact absurd ⟨hn, ht, hle⟩ hm
          · exact ⟨p, q, rfl, hf, hle⟩
    | barrier => simp [Kernel.firsts, ih, Fresh]
    | endChecks => simp [Kernel.firsts, ih, Fresh]

theorem Kernel.mem_expectedUpdates : n ∈ K.expectedUpdates ↔ n ∈ K.relay.nodes ∧
    ∃ p q, K.stmts (K.tid n) = p ++ .visit n :: q ∧ Fresh K (K.tid n) p n := by
  rw [Kernel.expectedUpdates, List.mem_filter, ← Kernel.mem_relay_ids, decide_eq_true_eq]
  refine and_congr_right fun hn => ?_
  simp [Kernel.mem_firsts hn rfl]

/-- A node that has updated is one expected to. -/
theorem Inv.mem_expected (h : Inv K g) (hn : n ∈ g.updates) : n ∈ K.expectedUpdates := by
  have hR : n ∈ K.relay.nodes := by
    rcases h.turn_updates n hn with hS | hT
    · exact h.front.subset (List.mem_toFinset.mpr hS)
    · exact hT.mem
  refine Kernel.mem_expectedUpdates.mpr ⟨hR, ?_⟩
  obtain ⟨done, todo, mid, hh, hc⟩ := h.thread (K.tid n)
  rcases hh.updated n (List.mem_toFinset.mpr hn) rfl with rfl | ⟨p, q, rfl, hf⟩
  · -- the visit under way
    have hfresh := (hh.midway n rfl).2
    generalize g.thread (K.tid n) = th at hc
    cases hc with
    | node hst ht hcode hat =>
      cases hat with
      | signal hturn => exact ⟨done, _, hst ▸ hh.program, hfresh⟩
  · exact ⟨p, q ++ todo, by simpa using hh.program, hf⟩

/-- **An expected node that has signalled has updated**: it was not
unlocked by a later visit. -/
theorem Inv.mem_updates (h : Inv K g) (hn : n ∈ K.expectedUpdates) (hS : n ∈ g.signals) :
    n ∈ g.updates := by
  obtain ⟨hR, p, q, hp, hf⟩ := Kernel.mem_expectedUpdates.mp hn
  obtain ⟨done, todo, mid, hh, -⟩ := h.thread (K.tid n)
  have hsplit := hh.program.symm.trans hp
  rcases List.append_eq_append_iff.mp hsplit with ⟨a, rfl, ha⟩ | ⟨a, rfl, ha⟩
  · exact absurd (List.mem_toFinset.mpr hS) (hh.ahead a n q ha hR rfl hf)
  · cases a with
    | nil =>
      have htodo : todo = [] ++ .visit n :: q := by simpa using ha.symm
      exact absurd (List.mem_toFinset.mpr hS) (hh.ahead [] n q htodo hR rfl (by simpa using hf))
    | cons st a =>
      obtain ⟨rfl, -⟩ := List.cons.inj ha
      exact List.mem_toFinset.mp (hh.past p n a rfl hR rfl hf)

/-- Once its thread is through an expected node has updated. -/
theorem Inv.mem_updates_of_finished (h : Inv K g) (hfin : K.Finished g)
    (hn : n ∈ K.expectedUpdates) : n ∈ g.updates := by
  obtain ⟨hR, p, q, hp, hf⟩ := Kernel.mem_expectedUpdates.mp hn
  obtain ⟨mid, hh⟩ := (h.thread (K.tid n)).history_of_nil (hfin _ (Kernel.tid_lt_size hR))
  exact List.mem_toFinset.mp (hh.past p n q hp hR rfl hf)

/-! ## The order of the updates -/

/-- The same nodes in the order of the steps are the same up to pairs. -/
theorem Kernel.sameUpToPairs {l l' : List ℕ} (hp : l.Perm l')
    (hl : l.Pairwise fun m n => K.relay.step m ≤ K.relay.step n)
    (hl' : l'.Pairwise fun m n => K.relay.step m ≤ K.relay.step n) : K.SameUpToPairs l l' := by
  refine ⟨hp, ?_⟩
  have hs : ∀ {l : List ℕ}, (l.Pairwise fun m n => K.relay.step m ≤ K.relay.step n) →
      (l.map K.stepIndex).Pairwise (· ≤ ·) := by
    intro l h
    rw [List.pairwise_map]
    exact h.imp fun hle => by rwa [← Kernel.relay_step, ← Kernel.relay_step]
  exact (hp.map K.stepIndex).eq_of_pairwise (fun a b _ _ => Nat.le_antisymm) (hs hl) (hs hl')

/-- **The updates made are the first of those expected**, up to pairs, and
all of them once every thread is through. -/
theorem Inv.updates_initial (h : Inv K g) : ∃ rest,
    K.SameUpToPairs (g.updates ++ rest) K.expectedUpdates ∧ (K.Finished g → rest = []) := by
  have hmem : ∀ r, r ∈ K.expectedUpdates.filter (fun n => n ∉ g.updates) ↔
      r ∈ K.expectedUpdates ∧ r ∉ g.updates := by simp
  have hnd : K.expectedUpdates.Nodup := K.ordered.nodup.filter _
  refine ⟨K.expectedUpdates.filter fun n => n ∉ g.updates, Kernel.sameUpToPairs ?_ ?_ ?_,
    fun hfin => ?_⟩
  · refine (List.perm_ext_iff_of_nodup ?_ hnd).mpr fun n => ?_
    · refine List.nodup_append.mpr ⟨h.nodup_updates, hnd.filter _, fun m hm r hr he => ?_⟩
      exact ((hmem r).mp hr).2 (he ▸ hm)
    · rw [List.mem_append, hmem]
      constructor
      · rintro (hn | hn)
        · exact h.mem_expected hn
        · exact hn.1
      · intro hn
        by_cases hu : n ∈ g.updates
        · exact .inl hu
        · exact .inr ⟨hn, hu⟩
  · refine List.pairwise_append.mpr ⟨h.sorted_updates, (K.steps_pairwise.filter _).filter _,
      fun m hm r hr => ?_⟩
    -- a node of a lower step than an update has signalled, so its own update is made
    obtain ⟨hre, hru⟩ := (hmem r).mp hr
    by_contra hlt
    refine hru (h.mem_updates hre (List.mem_toFinset.mp ?_))
    have hrR := (Kernel.mem_expectedUpdates.mp hre).1
    rcases h.turn_updates m hm with hS | hT
    · exact h.front.closed m (List.mem_toFinset.mpr hS) r hrR (by omega)
    · exact hT.earlier r hrR (by omega)
  · exact K.steps_pairwise.filter _
  · rw [List.filter_eq_nil_iff]
    intro n hn
    simpa using h.mem_updates_of_finished hfin hn

theorem Kernel.SameUpToPairs.trans {l₁ l₂ l₃ : List ℕ} (h : K.SameUpToPairs l₁ l₂)
    (h' : K.SameUpToPairs l₃ l₂) : K.SameUpToPairs l₁ l₃ :=
  ⟨h.1.trans h'.1.symm, h.2.trans h'.2.symm⟩

/-- **Message passing is deterministic.** In every state of every run: the
nodes whose constraints hold have not signalled and are of one step of the
ordering; each node is signalled at most once and by its own thread, and
updates at most once; and the updates made are the first of a list the
programs and the ordering fix, up to swapping the two of an asynchronous
pair. Two complete runs make the same updates in the same order, up to
such swaps. -/
theorem messages_deterministic (K : Kernel) :
    (∀ g, K.system.Reachable g →
      (∀ m n, K.MayUpdate g m → K.MayUpdate g n →
        m ∉ g.signals ∧ ∃ e ∈ K.order, m ∈ e.ids ∧ n ∈ e.ids) ∧
      g.signals.Nodup ∧ (∀ t n, (t, Event.signal n) ∈ g.log → K.tid n = t) ∧
      g.updates.Nodup ∧
      ∃ rest, K.SameUpToPairs (g.updates ++ rest) K.expectedUpdates ∧
        (K.Finished g → rest = [])) ∧
    ∀ g g', K.system.Reachable g → K.system.Reachable g' → K.Finished g → K.Finished g' →
      K.SameUpToPairs g.updates g'.updates := by
  refine ⟨fun g hg => ?_, fun g g' hg hg' hf hf' => ?_⟩
  · have hi := reachable_inv hg
    exact ⟨fun m n hm hn => hi.mayUpdate hm hn, hi.nodup_signals, hi.own_signal,
      hi.nodup_updates, hi.updates_initial⟩
  · obtain ⟨rest, h, hnil⟩ := (reachable_inv hg).updates_initial
    obtain ⟨rest', h', hnil'⟩ := (reachable_inv hg').updates_initial
    rw [hnil hf, List.append_nil] at h
    rw [hnil' hf', List.append_nil] at h'
    exact h.trans h'

end MessagePassing

end CLSmith
