import CLSmith.MessagePassing.Protocol
/-!
# A kernel's relay and its loops

The relay the locks of a kernel are, and its loops in the terms of that
relay: `NodeCode` for the loop of a node, `EndCode` for the end checks of a
thread. Both unlock exactly the ordered nodes of the thread they could
have been skipped after: in its loop a node unlocks the earlier ones of
its thread, the end checks unlock all of them.
-/

namespace CLSmith

namespace MessagePassing

open Common

namespace Kernel

variable (K : Kernel) {m n t : ℕ} {l : Lock}

theorem ordered : Ordered K.nodes K.order := by
  obtain ⟨t, t', h⟩ := K.generated
  exact createOrdering_ordered h

/-- **The relay of a kernel**: the nodes of the ordering drawn, with the flags and the
values `MakeLocks` gives them. -/
def relay : Relay ℕ Flag :=
  Relay.ofSteps (legs (orderLocks K.addr {} K.order)) (orderLocks_lawful K.ordered.nodup)

theorem flatten_legs : (legs (orderLocks K.addr {} K.order)).flatten = K.locks.map legOf := by
  rw [legs, locks, List.map_flatten]

theorem map_fst_locks : K.locks.map Prod.fst = K.order.flatMap Entry.ids := orderLocks_ids

variable {K}

theorem mem_relay : n ∈ K.relay.nodes ↔ ∃ l, (n, l) ∈ K.locks := by
  rw [relay, Relay.mem_ofSteps, flatten_legs]
  constructor
  · rintro ⟨x, hx, rfl⟩
    obtain ⟨y, hy, rfl⟩ := List.mem_map.mp hx
    exact ⟨y.2, hy⟩
  · rintro ⟨l, hl⟩
    exact ⟨legOf (n, l), List.mem_map_of_mem hl, rfl⟩

theorem mem_relay_ids : n ∈ K.relay.nodes ↔ n ∈ K.order.flatMap Entry.ids := by
  rw [mem_relay, ← map_fst_locks, List.mem_map]
  exact ⟨fun ⟨l, hl⟩ => ⟨_, hl, rfl⟩, fun ⟨x, hx, he⟩ => ⟨x.2, he ▸ hx⟩⟩

theorem lt_length (h : n ∈ K.relay.nodes) : n < K.nodes.length :=
  K.ordered.valid n (mem_relay_ids.mp h)

theorem tid_lt_size (h : n ∈ K.relay.nodes) : K.tid n < K.size := K.tid_lt n (lt_length h)

/-- A node has one lock. -/
theorem lock_unique {l' : Lock} (h : (n, l) ∈ K.locks) (h' : (n, l') ∈ K.locks) : l = l' := by
  have hnd : (K.locks.map Prod.fst).Nodup := by
    rw [map_fst_locks]
    exact K.ordered.nodup
  exact congrArg Prod.snd (List.inj_on_of_nodup_map hnd h h' rfl)

theorem relay_flag (h : (n, l) ∈ K.locks) : K.relay.flag n = l.signal.1 :=
  Relay.flag_ofSteps (x := legOf (n, l)) _ (by
    rw [flatten_legs]
    exact List.mem_map_of_mem h)

theorem relay_checks (h : (n, l) ∈ K.locks) : K.relay.checks n = l.checks :=
  Relay.checks_ofSteps (x := legOf (n, l)) _ (by
    rw [flatten_legs]
    exact List.mem_map_of_mem h)

/-- **A lock's signal** is its node's flag at the node's value. -/
theorem lock_signal (h : (n, l) ∈ K.locks) : l.signal = (K.relay.flag n, K.relay.value n) := by
  obtain ⟨st, hst, hx⟩ := List.mem_flatten.mp h
  obtain ⟨A, B, he⟩ := List.append_of_mem hst
  obtain ⟨s, e, -, hi, rfl⟩ := orderLocks_split flagInv_start he
  have hlegs : legs (orderLocks K.addr {} K.order) =
      legs A ++ ((stepLocks K.addr s e).1.map legOf) :: legs B := by
    rw [he]
    simp [legs]
  have hbase : K.relay.base (K.relay.step n) l.signal.1 = s.flag l.signal.1 := by
    refine (Relay.base_ofSteps (x := legOf (n, l)) _ hlegs (List.mem_map_of_mem hx)).trans ?_
    have := hi.count l.signal.1
    rw [List.nil_append] at this
    exact this.symm
  have hsig : l.signal = (l.signal.1, s.flag l.signal.1 + 1) := by
    rcases mem_stepLocks hx with ⟨-, hs⟩ | ⟨-, hs⟩ <;> rw [hs.signal]
  rw [Relay.value, relay_flag h, hbase]
  exact hsig

/-- Two nodes of one step are of two threads. -/
theorem tid_ne_of_step (hm : m ∈ K.relay.nodes) (hn : n ∈ K.relay.nodes)
    (hs : K.relay.step m = K.relay.step n) (hne : m ≠ n) : K.tid m ≠ K.tid n := by
  obtain ⟨l, hl⟩ := mem_relay.mp hm
  obtain ⟨l', hl'⟩ := mem_relay.mp hn
  obtain ⟨st, hst, hx⟩ := List.mem_flatten.mp hl
  obtain ⟨st', hst', hx'⟩ := List.mem_flatten.mp hl'
  obtain ⟨A, B, he⟩ := List.append_of_mem hst
  obtain ⟨A', B', he'⟩ := List.append_of_mem hst'
  have hlegs : ∀ {A st B}, orderLocks K.addr {} K.order = A ++ st :: B →
      legs (orderLocks K.addr {} K.order) = legs A ++ (st.map legOf) :: legs B := by
    intro A st B he
    rw [he]
    simp [legs]
  have hsm : K.relay.step m = (legs A).length :=
    Relay.step_ofSteps (x := legOf (m, l)) _ (hlegs he) (List.mem_map_of_mem hx)
  have hsn : K.relay.step n = (legs A').length :=
    Relay.step_ofSteps (x := legOf (n, l')) _ (hlegs he') (List.mem_map_of_mem hx')
  have hlen : A.length = A'.length := by
    rw [hsm, hsn] at hs
    simpa [legs] using hs
  obtain ⟨-, hcons⟩ := List.append_inj (he.symm.trans he') hlen
  obtain rfl : st = st' := (List.cons.inj hcons).1
  -- both are of one entry of the ordering
  obtain ⟨s, e, heo, -, rfl⟩ := orderLocks_split flagInv_start he
  have hids : (stepLocks K.addr s e).1.map Prod.fst = e.ids := stepLocks_ids
  have hme : m ∈ e.ids := by
    rw [← hids]
    exact List.mem_map_of_mem hx
  have hne' : n ∈ e.ids := by
    rw [← hids]
    exact List.mem_map_of_mem hx'
  have hp := K.ordered.partner_tid e heo
  simp only [Entry.ids, List.mem_cons, Option.mem_toList] at hme hne'
  rcases hme with rfl | hme <;> rcases hne' with rfl | hne'
  · exact absurd rfl hne
  · exact (hp n hne').symm
  · exact hp m hme
  · exact absurd (Option.some.inj (hme.symm.trans hne')) hne

/-- The ordering goes up the steps. -/
theorem steps_pairwise : (K.order.flatMap Entry.ids).Pairwise fun m n =>
    K.relay.step m ≤ K.relay.step n := by
  have hsteps := Relay.step_le_of_pairwise (E := legs (orderLocks K.addr {} K.order))
    (orderLocks_lawful K.ordered.nodup)
  have hmap : (legs (orderLocks K.addr {} K.order)).flatten.map Leg.name =
      K.order.flatMap Entry.ids := by
    rw [flatten_legs, List.map_map, ← map_fst_locks]
    rfl
  rwa [hmap] at hsteps

/-- **A thread's nodes come in their order**: of two, the one registered
first is of the lower step. -/
theorem step_lt_iff (hm : m ∈ K.relay.nodes) (hn : n ∈ K.relay.nodes) (ht : K.tid m = K.tid n) :
    K.relay.step m < K.relay.step n ↔ m < n := by
  have hboth := K.steps_pairwise.and K.ordered.sequenced
  -- of two nodes of a thread, in whichever order they stand, this holds
  let R : ℕ → ℕ → Prop := fun a b => K.tid a = K.tid b →
    K.relay.step a ≤ K.relay.step b ∧ a < b ∨ K.relay.step b ≤ K.relay.step a ∧ b < a
  have : Std.Symm R := ⟨fun a b h hab => (h hab.symm).symm⟩
  have hR : (K.order.flatMap Entry.ids).Pairwise R :=
    hboth.imp fun h hab => .inl ⟨h.1, h.2 hab⟩
  have hor : m ≠ n → K.relay.step m ≤ K.relay.step n ∧ m < n ∨
      K.relay.step n ≤ K.relay.step m ∧ n < m := fun hne =>
    hR.forall (mem_relay_ids.mp hm) (mem_relay_ids.mp hn) hne ht
  rcases eq_or_ne m n with rfl | hne
  · simp
  · have hstep : K.relay.step m ≠ K.relay.step n := fun hs => tid_ne_of_step hm hn hs hne ht
    rcases hor hne with ⟨h1, h2⟩ | ⟨h1, h2⟩
    · exact ⟨fun _ => h2, fun _ => by omega⟩
    · exact ⟨fun _ => by omega, fun _ => by omega⟩

/-- The end checks are the last statement of a program. -/
theorem endChecks_last {p q : List Stmt} (h : K.stmts t = p ++ .endChecks :: q) : q = [] := by
  by_contra hne
  obtain ⟨init, z, rfl⟩ := List.eq_nil_or_concat q |>.resolve_left hne
  rw [List.concat_eq_append] at h
  have hinit : K.body t ++ [.endChecks] = (p ++ .endChecks :: init) ++ [z] := by
    simpa [stmts] using h
  have hbody := (List.append_inj' hinit rfl).1
  exact K.body_end t (by rw [hbody]; simp)

/-! ## The loops -/

/-- What follows a node's wait: its update and its signal. -/
def own (n : ℕ) (lock : Lock) : List Instr := makeUpdate n ++ makeSignal n lock.signal

/-- **The loop of an ordered node.** It first asks whether the node is through, then
unlocks earlier nodes of its thread, and comes to its own update last. -/
structure NodeCode (K : Kernel) (n : ℕ) (unlocks : List (ℕ × Lock)) (lock : Lock) : Prop where
  lock_mem : (n, lock) ∈ K.locks
  mem_unlocks : ∀ x, x ∈ unlocks ↔ x ∈ K.locks ∧ K.tid x.1 = K.tid n ∧ x.1 < n
  body : nodeBody K.addr K.code n = .fence :: .breakIf (earlyBreak K.addr lock) ::
    (unlockIfs unlocks ++ .continueUnless lock.checks :: own n lock)

/-- **The end checks of a thread with ordered nodes**; `last` is the last
of them. -/
structure EndCode (K : Kernel) (t : ℕ) (unlocks : List (ℕ × Lock)) (last : ℕ) (lock : Lock) :
    Prop where
  lock_mem : (last, lock) ∈ K.locks
  tid_last : K.tid last = t
  le_last : ∀ n ∈ K.relay.nodes, K.tid n = t → n ≤ last
  mem_unlocks : ∀ x, x ∈ unlocks ↔ x ∈ K.locks ∧ K.tid x.1 = t
  body : endBody K.addr K.code t = .fence :: (unlockIfs unlocks ++
    [.fence, .breakIf (earlyBreak K.addr lock)])

/-- The locks are in the order of the nodes, thread by thread. -/
theorem locks_pairwise : K.locks.Pairwise fun x y => K.tid x.1 = K.tid y.1 → x.1 < y.1 := by
  have := K.ordered.sequenced
  rw [← map_fst_locks, List.pairwise_map] at this
  exact this

theorem exists_nodeCode (h : n ∈ K.relay.nodes) : ∃ unlocks lock, NodeCode K n unlocks lock := by
  obtain ⟨l₀, hl₀⟩ := mem_relay.mp h
  cases hw : K.code.waits n with
  | none => exact absurd rfl (waits_eq_none.mp hw _ hl₀)
  | some w =>
    obtain ⟨unlocks, lock⟩ := w
    obtain ⟨L₁, L₂, hL, hu⟩ := waits_eq_some hw
    have hmem : (n, lock) ∈ K.locks := by rw [hL]; simp
    have hlt := K.lt_length h
    refine ⟨unlocks, lock, hmem, fun x => ?_, ?_⟩
    · rw [hu, mem_unlockMap]
      constructor
      · rintro ⟨hx, hlater⟩
        have hxL : x ∈ K.locks := by
          rw [hL]
          exact List.mem_append_left _ hx
        have hx1 := K.lt_length (mem_relay.mpr ⟨x.2, hxL⟩)
        obtain ⟨-, ht, hlt'⟩ := (mem_later hx1).mp hlater
        exact ⟨hxL, ht.symm, hlt'⟩
      · rintro ⟨hxL, ht, hlt'⟩
        have hx1 := K.lt_length (mem_relay.mpr ⟨x.2, hxL⟩)
        refine ⟨?_, (mem_later hx1).mpr ⟨hlt, ht.symm, hlt'⟩⟩
        -- an earlier node's lock is made before this one's
        have hp := K.locks_pairwise
        rw [hL] at hxL hp
        rcases List.mem_append.mp hxL with hx | hx
        · exact hx
        · rcases List.mem_cons.mp hx with rfl | hx
          · exact absurd hlt' (Nat.lt_irrefl _)
          · have := (List.pairwise_cons.mp (List.pairwise_append.mp hp).2.1).1 x hx ht.symm
            simp only at this
            omega
    · simp [nodeBody, hw, makeWait, own]

theorem nodeBody_eq_nil (h : n ∉ K.relay.nodes) : nodeBody K.addr K.code n = [] := by
  have hw : K.code.waits n = none := waits_eq_none.mpr fun x hx he =>
    h (mem_relay.mpr ⟨x.2, he ▸ hx⟩)
  rw [nodeBody, hw]

theorem exists_endCode (h : n ∈ K.relay.nodes) :
    ∃ unlocks last lock, EndCode K (K.tid n) unlocks last lock := by
  obtain ⟨l₀, hl₀⟩ := mem_relay.mp h
  have hec : K.code.endChecks (K.tid n) = K.locks.filter fun x => K.tid x.1 = K.tid n :=
    endChecks_eq
  have hne : K.code.endChecks (K.tid n) ≠ [] := by
    rw [hec]
    exact List.ne_nil_of_mem (List.mem_filter.mpr ⟨hl₀, by simp⟩)
  obtain ⟨init, last, hsplit⟩ := List.eq_nil_or_concat
    (K.code.endChecks (K.tid n)) |>.resolve_left hne
  rw [List.concat_eq_append] at hsplit
  have hlast : last ∈ K.locks ∧ K.tid last.1 = K.tid n := by
    have : last ∈ K.code.endChecks (K.tid n) := by rw [hsplit]; simp
    rw [hec, List.mem_filter] at this
    simpa using this
  refine ⟨K.code.endChecks (K.tid n), last.1, last.2, hlast.1, hlast.2, fun m hm ht => ?_,
    fun x => ?_, ?_⟩
  · obtain ⟨l, hl⟩ := mem_relay.mp hm
    have hml : (m, l) ∈ init ++ [last] := by
      rw [← hsplit, hec]
      exact List.mem_filter.mpr ⟨hl, by simpa using ht⟩
    rcases List.mem_append.mp hml with hml | hml
    · have hp : (init ++ [last]).Pairwise fun x y => K.tid x.1 = K.tid y.1 → x.1 < y.1 := by
        rw [← hsplit, hec]
        exact K.locks_pairwise.filter _
      have := (List.pairwise_append.mp hp).2.2 (m, l) hml last (by simp) (ht.trans hlast.2.symm)
      simp only at this
      omega
    · obtain rfl : (m, l) = last := by simpa using hml
      exact Nat.le_refl _
  · rw [hec, List.mem_filter]
    simp
  · rw [endBody, hsplit, List.getLast?_concat]
    rfl

theorem endBody_eq_nil (h : ∀ n ∈ K.relay.nodes, K.tid n ≠ t) : endBody K.addr K.code t = [] := by
  have hec : K.code.endChecks t = K.locks.filter fun x => K.tid x.1 = t := endChecks_eq
  have hnil : K.code.endChecks t = [] := by
    rw [hec, List.filter_eq_nil_iff]
    intro x hx
    simpa using h x.1 (mem_relay.mpr ⟨x.2, hx⟩)
  rw [endBody, hnil]
  rfl

/-- The end checks' unlocks are of the thread of their last node. -/
theorem EndCode.ne_nil {unlocks : List (ℕ × Lock)} {last : ℕ} {lock : Lock}
    (h : EndCode K t unlocks last lock) : endBody K.addr K.code t ≠ [] := by
  rw [h.body]
  simp

theorem NodeCode.ne_nil {unlocks : List (ℕ × Lock)} {lock : Lock}
    (h : NodeCode K n unlocks lock) : nodeBody K.addr K.code n ≠ [] := by
  rw [h.body]
  simp

/-- A statement that is a loop for a thread is a visit of an ordered node
of it, or the end checks with an ordered node to check. -/
theorem loopOf_cases {st : Stmt} (h : K.loopOf t st ≠ []) :
    (∃ n unlocks lock, st = .visit n ∧ K.tid n = t ∧ K.NodeCode n unlocks lock ∧
      K.loopOf t st = nodeBody K.addr K.code n) ∨
    (∃ unlocks last lock, st = .endChecks ∧ K.EndCode t unlocks last lock) := by
  cases st with
  | visit n =>
    have ht : K.tid n = t := by
      by_contra ht
      exact h (if_neg ht)
    have hbody : K.loopOf t (.visit n) = nodeBody K.addr K.code n := if_pos ht
    have hn : n ∈ K.relay.nodes := by
      by_contra hn
      exact h (hbody.trans (nodeBody_eq_nil hn))
    obtain ⟨unlocks, lock, hc⟩ := exists_nodeCode hn
    exact .inl ⟨n, unlocks, lock, rfl, ht, hc, hbody⟩
  | barrier => exact absurd rfl h
  | endChecks =>
    have hex : ∃ n ∈ K.relay.nodes, K.tid n = t := by
      by_contra hno
      push Not at hno
      exact h (endBody_eq_nil hno)
    obtain ⟨n, hn, rfl⟩ := hex
    obtain ⟨unlocks, last, lock, hc⟩ := exists_endCode hn
    exact .inr ⟨unlocks, last, lock, rfl, hc⟩

end Kernel

end MessagePassing

end CLSmith
