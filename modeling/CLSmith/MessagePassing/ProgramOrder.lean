import CLSmith.MessagePassing.Emit
import Mathlib.Data.List.Chain
/-!
# The schedule and the program order

`Message::CreateOrdering` draws the nodes of a thread in the order they are
sequenced in, never from the same thread in two steps that follow each
other, and leaves out only nodes of the threads it drew last. The unlocks it
hands to `MakeWait` are the locks of the thread's own earlier nodes.
-/

namespace CLSmith

namespace MessagePassing

variable {nodes : List ℕ}

/-- The threads of a step. -/
def Entry.tids (nodes : List ℕ) (e : Entry) : List ℕ := e.ids.map (tidOf nodes)

/-- **A schedule that respects every thread's program order.** Of a thread the first
nodes are scheduled, in their order; two steps in a row have no thread in common, and
what is left belongs to the threads of the last step. -/
structure Scheduled (nodes : List ℕ) (order : List Entry) : Prop where
  nodup : (order.flatMap Entry.ids).Nodup
  sequenced : ∀ tid,
    (order.flatMap Entry.ids).filter (fun n => tidOf nodes n = tid) <+: sbGraph nodes tid
  tids_nodup : ∀ e ∈ order, (e.tids nodes).Nodup
  tids_disjoint : order.IsChain fun e e' => (e.tids nodes).Disjoint (e'.tids nodes)
  left : ∀ n < nodes.length, n ∉ order.flatMap Entry.ids →
    ∃ e ∈ order.getLast?, tidOf nodes n ∈ e.tids nodes

/-- **The unlocks of a node** are the locks of the nodes scheduled before it
from its thread, in their order. -/
def UnlocksEarlier (nodes : List ℕ) (order : List Entry) (code : Code) : Prop :=
  ∀ A n B, order.flatMap Entry.ids = A ++ n :: B → ∃ unlocks lock,
    code.waits n = some (unlocks, lock) ∧
    unlocks.map Prod.fst = A.filter (fun m => tidOf nodes m = tidOf nodes n) ∧
    ∀ x ∈ unlocks, ∃ us, code.waits x.1 = some (us, x.2)

/-! ## The threads of the steps -/

namespace Schedule

variable {numTids : ℕ} {s s' : Schedule} {t t' : Tape}

/-- A thread the table yields was not drawn last, and has a node left. -/
theorem rndNumToKey_spec {v tid : ℕ} (h : (s.table numTids).rndNumToKey v = some tid) :
    tid ∉ s.lastTids ∧ s.iterators tid ≠ [] := by
  obtain ⟨prob, hpos, hmem⟩ := DistributionTable.toKey_mem h
  rw [table_entries, List.mem_map] at hmem
  obtain ⟨u, hu, he⟩ := hmem
  cases he
  exact ⟨by simpa using (List.mem_filter.mp hu).2, List.length_pos_iff.mp hpos⟩

/-- The partner is one of the table's threads too. -/
theorem drawPartner_spec {nextTid asyncTid : ℕ}
    (h : drawPartner (s.table numTids) nextTid t = some (some asyncTid, t')) :
    asyncTid ∉ s.lastTids ∧ s.iterators asyncTid ≠ [] := by
  unfold drawPartner at h
  split at h
  · obtain ⟨b, t₁, -, h⟩ := Gen.bind_eq_some.mp h
    cases b
    · cases h
    · simp only [if_true] at h
      obtain ⟨v, t₂, -, h⟩ := Gen.bind_eq_some.mp h
      obtain ⟨tid, t₃, htid, h⟩ := Gen.bind_eq_some.mp h
      obtain ⟨hkey, rfl⟩ := Gen.ofOption_eq_some.mp htid
      cases h
      exact rndNumToKey_spec hkey
  · cases h

/-- **The threads of a new step** are none of those drawn last. -/
theorem step_lastTids (h : step numTids s t = some (some s', t')) :
    ∃ e, s'.order = s.order ++ [e] ∧ s'.lastTids.Disjoint s.lastTids := by
  unfold step at h
  simp only at h
  split at h
  · cases h
  obtain ⟨v, t₁, -, h⟩ := Gen.bind_eq_some.mp h
  obtain ⟨tid, t₂, htid, h⟩ := Gen.bind_eq_some.mp h
  obtain ⟨hkey, rfl⟩ := Gen.ofOption_eq_some.mp htid
  have hnot := (rndNumToKey_spec hkey).1
  obtain ⟨⟨n, its⟩, t₃, htake, h⟩ := Gen.bind_eq_some.mp h
  obtain ⟨partner, t₄, hpartner, h⟩ := Gen.bind_eq_some.mp h
  cases partner with
  | none =>
    cases h
    refine ⟨_, rfl, ?_⟩
    intro u hu hlast
    rw [List.mem_singleton.mp hu] at hlast
    exact hnot hlast
  | some tid' =>
    have hnot' := (drawPartner_spec hpartner).1
    obtain ⟨⟨p, its'⟩, t₅, htake', h⟩ := Gen.bind_eq_some.mp h
    cases h
    refine ⟨_, rfl, ?_⟩
    intro u hu hlast
    rcases List.mem_pair.mp hu with rfl | rfl
    · exact hnot hlast
    · exact hnot' hlast

/-- **The threads of the steps so far**: those drawn last are the last step's, and no
step has a thread twice or one of the step before. -/
structure Steps (nodes : List ℕ) (s : Schedule) : Prop where
  inv : Inv nodes s
  last : s.lastTids = (s.order.getLast?.map (Entry.tids nodes)).getD []
  tids_nodup : ∀ e ∈ s.order, (e.tids nodes).Nodup
  tids_disjoint : s.order.IsChain fun e e' => (e.tids nodes).Disjoint (e'.tids nodes)

theorem steps_start : Steps nodes (start nodes) :=
  ⟨inv_start, rfl, fun _ he => absurd he List.not_mem_nil, .nil⟩

theorem Steps.step (hs : Steps nodes s) (h : step numTids s t = some (some s', t')) :
    Steps nodes s' := by
  obtain ⟨e, horder, hdisj⟩ := step_lastTids h
  have htid : ∀ tid n rest, s.iterators tid = n :: rest → tidOf nodes n = tid := by
    intro tid n rest hn
    exact (hs.inv.mem_iterators tid n (by simp [hn])).2
  have hlast : s'.lastTids = e.tids nodes ∧ (e.tids nodes).Nodup := by
    rcases step_cases h with ⟨tid, n, rest, -, hn, rfl⟩ |
      ⟨tid, n, rest, tid', p, rest', -, -, hne, hn, hp, rfl⟩
    · obtain rfl : (⟨n, none⟩ : Entry) = e := by simpa using horder
      simp [Entry.tids, Entry.ids, htid tid n rest hn]
    · obtain rfl : (⟨n, some p⟩ : Entry) = e := by simpa using horder
      simp [Entry.tids, Entry.ids, htid tid n rest hn, htid tid' p rest' hp, hne.symm]
  refine ⟨hs.inv.step h, ?_, ?_, ?_⟩
  · rw [horder, List.getLast?_concat]
    exact hlast.1
  · intro e' he'
    rw [horder, List.mem_append] at he'
    rcases he' with he' | he'
    · exact hs.tids_nodup e' he'
    · rw [List.mem_singleton.mp he']
      exact hlast.2
  · rw [horder]
    refine List.isChain_append.mpr ⟨hs.tids_disjoint, .singleton e, ?_⟩
    intro e₁ he₁ e₂ he₂
    obtain rfl : e = e₂ := by simpa using he₂
    rw [hlast.1, hs.last, Option.mem_def.mp he₁] at hdisj
    exact hdisj.symm

/-- **At the end** nothing is left to the threads not drawn last. -/
theorem Steps.loop {k : ℕ} (hs : Steps nodes s) (h : loop numTids k s t = some (s', t')) :
    Steps nodes s' ∧ (s'.table numTids).getMax = 0 := by
  induction k generalizing s t with
  | zero => cases h
  | succ k ih =>
    obtain ⟨o, t₁, hstep, h⟩ := Gen.bind_eq_some.mp h
    cases o with
    | none =>
      cases h
      refine ⟨hs, ?_⟩
      by_contra hmax
      unfold Schedule.step at hstep
      simp only [hmax, if_false] at hstep
      obtain ⟨v, t₂, -, hstep⟩ := Gen.bind_eq_some.mp hstep
      obtain ⟨tid, t₃, -, hstep⟩ := Gen.bind_eq_some.mp hstep
      obtain ⟨⟨n, its⟩, t₄, -, hstep⟩ := Gen.bind_eq_some.mp hstep
      obtain ⟨partner, t₅, -, hstep⟩ := Gen.bind_eq_some.mp hstep
      cases partner with
      | none => cases hstep
      | some tid' =>
        obtain ⟨⟨p, its'⟩, t₆, -, hstep⟩ := Gen.bind_eq_some.mp hstep
        cases hstep
    | some s₁ => exact ih (hs.step hstep) h

theorem iterators_eq_nil_of_getMax (h : (s.table numTids).getMax = 0) {tid : ℕ}
    (hlt : tid < numTids) (hlast : tid ∉ s.lastTids) : s.iterators tid = [] := by
  have hmem : (s.iterators tid).length ∈ (s.table numTids).entries.map Prod.snd := by
    rw [table_entries, List.map_map]
    exact List.mem_map.mpr ⟨tid, List.mem_filter.mpr ⟨List.mem_range.mpr hlt, by simpa using hlast⟩,
      rfl⟩
  exact List.length_eq_zero_iff.mp (List.sum_eq_zero_iff_forall_eq_nat.mp h _ hmem)

/-! ## The loop returns -/

/-- The partner's draw: another thread of the table has nodes left. -/
theorem completes_drawPartner (s : Schedule) (numTids nextTid : ℕ) :
    Gen.Completes (drawPartner (s.table numTids) nextTid) := by
  unfold drawPartner
  split
  · rename_i hprob
    refine (Gen.Completes.rndFlipcoin 10).bind fun _ b _ _ => ?_
    cases b with
    | false => exact .pure none
    | true =>
      simp only [if_true]
      have hkeys : ((s.table numTids).entries.map Prod.fst).Nodup := by
        rw [table_entries, List.map_map]
        simp only [Function.comp_def, List.map_id']
        exact List.nodup_range.filter _
      obtain ⟨⟨key, prob⟩, hmem, hne, hpos⟩ := DistributionTable.exists_other hkeys hprob
      obtain ⟨v, hv, hkey⟩ := DistributionTable.toKey_surj hmem hpos
      have hfilter : VectorFilter.filter ((VectorFilter.mk (s.table numTids) []).add nextTid) v =
          false := by
        have hlookup : VectorFilter.lookup ((VectorFilter.mk (s.table numTids) []).add nextTid) v =
            some key := hkey
        rw [VectorFilter.filter, hlookup]
        simpa [VectorFilter.add] using hne
      refine (Gen.Completes.rndUpto hv hfilter).bind fun t₁ v' t₂ hdraw => ?_
      have hv' := rndUpto_lt (Nat.zero_lt_of_lt hv) hdraw
      obtain ⟨tid, htid⟩ := DistributionTable.toKey_total hv'
      exact (Gen.Completes.ofOption htid).bind fun _ tid' _ _ => .pure _
  · exact .pure none

theorem completes_step (s : Schedule) (numTids : ℕ) : Gen.Completes (step numTids s) := by
  unfold step
  simp only
  split
  · exact .pure none
  rename_i hmax
  refine (Gen.Completes.rndUpto (Nat.pos_of_ne_zero hmax) rfl).bind fun _ v _ hv => ?_
  have hlt := rndUpto_lt (Nat.pos_of_ne_zero hmax) hv
  obtain ⟨tid, htid⟩ := DistributionTable.toKey_total hlt
  refine (Gen.Completes.ofOption htid).bind fun _ tid' _ hkey => ?_
  have hleft := (rndNumToKey_spec (Gen.ofOption_eq_some.mp hkey).1).2
  obtain ⟨n, rest, hn⟩ := List.exists_cons_of_ne_nil hleft
  have htake : s.take tid' = some (n, Function.update s.iterators tid' rest) :=
    take_eq_some.mpr ⟨rest, hn, rfl⟩
  refine (Gen.Completes.ofOption htake).bind fun _ p _ hp => ?_
  obtain rfl : (n, Function.update s.iterators tid' rest) = p :=
    Option.some_injective _ (htake.symm.trans (Gen.ofOption_eq_some.mp hp).1)
  refine (completes_drawPartner s numTids tid').bind fun t₁ partner t₂ hpartner => ?_
  cases partner with
  | none => exact .pure _
  | some asyncTid =>
    have hne := (drawPartner_ne hpartner).1
    obtain ⟨q, rest', hq⟩ := List.exists_cons_of_ne_nil (drawPartner_spec hpartner).2
    have htake' : Schedule.take { s with iterators := Function.update s.iterators tid' rest }
        asyncTid =
          some (q, Function.update (Function.update s.iterators tid' rest) asyncTid rest') :=
      take_eq_some.mpr ⟨rest', (Function.update_of_ne hne _ _).trans hq, rfl⟩
    exact (Gen.Completes.ofOption htake').bind fun _ r _ _ => .pure _

theorem completes_loop {k : ℕ} (h : left numTids s < k) : Gen.Completes (loop numTids k s) := by
  induction k generalizing s with
  | zero => omega
  | succ k ih =>
    refine (completes_step s numTids).bind fun t₁ o t₂ hstep => ?_
    cases o with
    | none => exact .pure s
    | some s₁ =>
      have := left_step hstep
      exact ih (by omega)

end Schedule

/-- **`CreateOrdering` returns**, whatever it draws. -/
theorem completes_createOrdering (nodes : List ℕ) : Gen.Completes (createOrdering nodes) := by
  have hleft := Schedule.left_start_le nodes (maxTid nodes + 1)
  exact (Schedule.completes_loop (by omega)).bind fun _ s _ _ => .pure s.order

theorem tidOf_le_maxTid {n : ℕ} (hn : n < nodes.length) : tidOf nodes n ≤ maxTid nodes := by
  have key : ∀ (l : List ℕ) (a m : ℕ), a ∈ l ∨ a ≤ m → a ≤ l.foldl max m := by
    intro l
    induction l with
    | nil =>
      intro a m h
      simpa using h
    | cons b l ih =>
      intro a m h
      refine ih a _ ?_
      rcases h with h | h
      · rcases List.mem_cons.mp h with rfl | h
        · exact .inr (Nat.le_max_right _ _)
        · exact .inl h
      · exact .inr (h.trans (Nat.le_max_left _ _))
  have hget : tidOf nodes n = nodes[n] := by simp [tidOf, hn]
  rw [hget]
  exact key nodes _ 0 (.inl (List.getElem_mem hn))

/-- **The ordering drawn respects the program order.** -/
theorem createOrdering_scheduled {order : List Entry} {t t' : Tape}
    (h : createOrdering nodes t = some (order, t')) : Scheduled nodes order := by
  have hordered := createOrdering_ordered h
  obtain ⟨s, t₁, hloop, h⟩ := Gen.bind_eq_some.mp h
  cases h
  obtain ⟨hs, hmax⟩ := Schedule.steps_start.loop hloop
  refine ⟨?_, ?_, hs.tids_nodup, hs.tids_disjoint, ?_⟩
  · refine hordered.sequenced.imp ?_
    intro m n hmn heq
    have := hmn (by rw [heq])
    omega
  · intro tid
    exact ⟨s.iterators tid, hs.inv.split tid⟩
  · intro n hn hnot
    have hmem : n ∈ sbGraph nodes (tidOf nodes n) := mem_sbGraph.mpr ⟨hn, rfl⟩
    rw [← hs.inv.split, List.mem_append, List.mem_filter] at hmem
    have hiter := hmem.resolve_left fun hin => hnot hin.1
    have hlt : tidOf nodes n < maxTid nodes + 1 := by
      have := tidOf_le_maxTid hn
      omega
    have hlast : tidOf nodes n ∈ s.lastTids := by
      by_contra hnone
      rw [Schedule.iterators_eq_nil_of_getMax hmax hlt hnone] at hiter
      exact List.not_mem_nil hiter
    rw [hs.last] at hlast
    cases he : s.order.getLast? with
    | none =>
      rw [he] at hlast
      exact absurd hlast List.not_mem_nil
    | some e =>
      rw [he] at hlast
      exact ⟨e, rfl, hlast⟩

/-! ## The unlocks -/

section Unlocks

variable {locks L₁ L₂ : List (ℕ × Lock)} {n : ℕ} {lock : Lock}

/-- The unlocks collected for a node are of the nodes sequenced before it,
in the order of their locks. -/
theorem unlockMap_eq : (makeCode nodes locks).unlockMap n =
    locks.filter fun x => n ∈ later nodes x.1 := by
  induction locks using List.reverseRecOn with
  | nil => rfl
  | append_singleton locks y ih =>
    rw [makeCode_concat, List.filter_append, ← ih, Code.place]
    by_cases h : n ∈ later nodes y.1
    · simp [h]
    · simp [h]

/-- The wait of a node is made of what was collected before it. -/
theorem waits_of_split (hnd : (locks.map Prod.fst).Nodup) (h : locks = L₁ ++ (n, lock) :: L₂) :
    (makeCode nodes locks).waits n = some ((makeCode nodes L₁).unlockMap n, lock) := by
  subst h
  have hlater : ∀ y ∈ L₂, y.1 ≠ n := by
    intro y hy heq
    rw [List.map_append, List.map_cons] at hnd
    have hcons := (List.nodup_append.mp hnd).2.1
    have hmem : y.1 ∈ L₂.map Prod.fst := List.mem_map_of_mem hy
    rw [heq] at hmem
    exact (List.nodup_cons.mp hcons).1 hmem
  clear hnd
  induction L₂ using List.reverseRecOn with
  | nil =>
    rw [makeCode_concat]
    exact place_waits_self
  | append_singleton L₂ y ih =>
    have hy : n ≠ y.1 := (hlater y (by simp)).symm
    rw [← List.cons_append, ← List.append_assoc, makeCode_concat, place_waits_of_ne hy]
    exact ih fun z hz => hlater z (by simp [hz])

end Unlocks

/-- **What `MakeWait` is given**, for an ordering in program order. -/
theorem unlocksEarlier_of_scheduled {order : List Entry} (addr : Flag → ℕ)
    (hordered : Ordered nodes order) (h : Scheduled nodes order) :
    UnlocksEarlier nodes order (makeCode nodes (orderLocks addr {} order).flatten) := by
  intro A n B hsplit
  have hids : (orderLocks addr {} order).flatten.map Prod.fst = order.flatMap Entry.ids :=
    orderLocks_ids
  generalize (orderLocks addr {} order).flatten = locks at hids ⊢
  have hnd : (locks.map Prod.fst).Nodup := hids ▸ h.nodup
  rw [hsplit] at hids
  obtain ⟨L₁, rest, rfl, hA, hrest⟩ := List.map_eq_append_iff.mp hids
  obtain ⟨⟨m, lock⟩, L₂, rfl, rfl, hB⟩ := List.map_eq_cons_iff.mp hrest
  have hwait : (makeCode nodes (L₁ ++ (m, lock) :: L₂)).waits m =
      some ((makeCode nodes L₁).unlockMap m, lock) := waits_of_split hnd rfl
  -- of the nodes in front, those of the thread are just those it comes after
  have hsame : ∀ x ∈ L₁, (m ∈ later nodes x.1 ↔ tidOf nodes x.1 = tidOf nodes m) := by
    intro x hx
    have hxA : x.1 ∈ A := hA ▸ List.mem_map_of_mem hx
    have hxv : x.1 < nodes.length := hordered.valid _ (by rw [hsplit]; simp [hxA])
    have hmv : m < nodes.length := hordered.valid _ (by rw [hsplit]; simp)
    rw [mem_later hxv]
    constructor
    · intro hlater
      exact hlater.2.1.symm
    · intro heq
      have hlt := hordered.sequenced
      rw [hsplit] at hlt
      exact ⟨hmv, heq.symm, (List.pairwise_append.mp hlt).2.2 x.1 hxA m (by simp) heq⟩
  refine ⟨_, lock, hwait, ?_, ?_⟩
  · rw [unlockMap_eq, ← hA, List.filter_map]
    refine congrArg _ (List.filter_congr fun x hx => ?_)
    simp only [Function.comp_apply, decide_eq_decide]
    exact hsame x hx
  · intro x hx
    rw [unlockMap_eq] at hx
    obtain ⟨A', B', rfl⟩ := List.append_of_mem (List.mem_filter.mp hx).1
    have hearlier : A' ++ x :: B' ++ (m, lock) :: L₂ =
        A' ++ (x.1, x.2) :: (B' ++ (m, lock) :: L₂) := by
      simp
    exact ⟨_, waits_of_split hnd hearlier⟩

/-- **The message schedule respects every thread's program order.** The
loop returns whatever is drawn, and never needs more rounds than there are
nodes; what it returns is a schedule in program order, and each scheduled
node is given the locks of the nodes scheduled before it from its thread. -/
theorem createOrdering_programOrder (nodes : List ℕ) (addr : Flag → ℕ) :
    Gen.Completes (createOrdering nodes) ∧
    (∀ k, createOrdering nodes = do
      let s ← Schedule.loop (maxTid nodes + 1) (nodes.length + 1 + k) (Schedule.start nodes)
      return s.order) ∧
    ∀ t order t', createOrdering nodes t = some (order, t') → Scheduled nodes order ∧
      UnlocksEarlier nodes order (makeCode nodes (orderLocks addr {} order).flatten) := by
  refine ⟨completes_createOrdering nodes, createOrdering_eq nodes, ?_⟩
  intro t order t' h
  have hs := createOrdering_scheduled h
  exact ⟨hs, unlocksEarlier_of_scheduled addr (createOrdering_ordered h) hs⟩

end MessagePassing

end CLSmith
