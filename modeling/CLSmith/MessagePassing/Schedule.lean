import CLSmith.Random
import Mathlib.Data.List.Sort
import Mathlib.Data.List.Range
import Mathlib.Tactic.SplitIfs
/-!
# The ordering of the message nodes

The first half of `Message::CreateOrdering`: the registered nodes are split
by thread, and the loop draws them one at a time, or two at a time as an
asynchronous pair, until every thread not drawn last has run out. A thread
drawn last may still hold nodes then: they stay unordered.

What the rest of the development uses of the ordering is `Ordered`: the
nodes are registered nodes, each thread's appear in the order they were
registered in, and a pair is of two threads. A thread is its linear local
id, a node the place `AssignID` gives it in the list of registered nodes.
-/

namespace CLSmith

namespace MessagePassing

/-- **One place in the ordering**: a node of `nodes_order_`, and the node
`nodes_async_` holds for it. -/
structure Entry where
  node : ℕ
  partner : Option ℕ
deriving DecidableEq

/-- The nodes of an entry. -/
def Entry.ids (e : Entry) : List ℕ := e.node :: e.partner.toList

/-- `Gettid` of a registered node. -/
def tidOf (nodes : List ℕ) (n : ℕ) : ℕ := nodes.getD n 0

/-- `sb_graph_[tid]`: the thread's nodes, sequenced as they were registered. -/
def sbGraph (nodes : List ℕ) (tid : ℕ) : List ℕ :=
  (List.range nodes.length).filter fun n => tidOf nodes n = tid

/-- `max_tid`. -/
def maxTid (nodes : List ℕ) : ℕ := nodes.foldl max 0

/-- The state of the scheduling loop: what each iterator has left, the
threads drawn last, and the ordering so far. -/
structure Schedule where
  iterators : ℕ → List ℕ
  lastTids : List ℕ
  order : List Entry

namespace Schedule

def start (nodes : List ℕ) : Schedule := ⟨sbGraph nodes, [], []⟩

/-- The threads that may be drawn, each with what it has left. -/
def table (numTids : ℕ) (s : Schedule) : DistributionTable :=
  ((List.range numTids).filter fun tid => tid ∉ s.lastTids).foldl
    (fun d tid => d.addEntry tid (s.iterators tid).length) {}

/-- `*iterators[tid]++`. -/
def take (s : Schedule) (tid : ℕ) : Option (ℕ × (ℕ → List ℕ)) :=
  match s.iterators tid with
  | [] => none
  | n :: rest => some (n, Function.update s.iterators tid rest)

/-- The drawing of an asynchronous partner for the node just drawn from
`nextTid`: `none` where the loop takes no partner. -/
def drawPartner (table : DistributionTable) (nextTid : ℕ) : Gen (Option ℕ) :=
  if table.keyToProb nextTid ≠ table.getMax then do
    if ← rndFlipcoin 10 then
      let filter := (VectorFilter.mk table []).add nextTid
      let v ← rndUpto filter.getMaxProb filter.filter
      let tid ← Gen.ofOption (filter.lookup v)
      return some tid
    else return none
  else return none

/-- One iteration of the loop; `none` is its `break`. -/
def step (numTids : ℕ) (s : Schedule) : Gen (Option Schedule) :=
  let table := s.table numTids
  if table.getMax = 0 then return none
  else do
    let v ← rndUpto table.getMax fun _ => false
    let nextTid ← Gen.ofOption (table.rndNumToKey v)
    let (node, its) ← Gen.ofOption (s.take nextTid)
    match ← drawPartner table nextTid with
    | none => return some ⟨its, [nextTid], s.order ++ [⟨node, none⟩]⟩
    | some asyncTid =>
      let (partner, its') ← Gen.ofOption ({ s with iterators := its }.take asyncTid)
      return some ⟨its', [nextTid, asyncTid], s.order ++ [⟨node, some partner⟩]⟩

/-- The loop. Every iteration takes a node, so one more than there are
nodes is enough; see `createOrdering_eq`. -/
def loop (numTids : ℕ) : ℕ → Schedule → Gen Schedule
  | 0, _ => fun _ => none
  | k + 1, s => do
    match ← step numTids s with
    | none => return s
    | some s' => loop numTids k s'

end Schedule

/-- **The ordering `CreateOrdering` draws.** The loop stops when the threads that are
left are those of the last step. -/
def createOrdering (nodes : List ℕ) : Gen (List Entry) := do
  let s ← Schedule.loop (maxTid nodes + 1) (nodes.length + 1) (Schedule.start nodes)
  return s.order

/-- **An ordering of registered nodes.** The nodes of one thread are in the order of
the program, and a pair is of two threads. -/
structure Ordered (nodes : List ℕ) (order : List Entry) : Prop where
  valid : ∀ n ∈ order.flatMap Entry.ids, n < nodes.length
  sequenced : (order.flatMap Entry.ids).Pairwise fun m n =>
    tidOf nodes m = tidOf nodes n → m < n
  partner_tid : ∀ e ∈ order, ∀ p ∈ e.partner, tidOf nodes p ≠ tidOf nodes e.node

/-! ## One iteration -/

namespace Schedule

variable {nodes : List ℕ} {numTids : ℕ} {s s' : Schedule} {t t' : Tape}

theorem take_eq_some {tid : ℕ} {n : ℕ} {its : ℕ → List ℕ} :
    s.take tid = some (n, its) ↔
      ∃ rest, s.iterators tid = n :: rest ∧ its = Function.update s.iterators tid rest := by
  unfold take
  split
  · next h => simp [h]
  · next n' rest' h =>
    rw [h]
    constructor
    · intro e
      cases e
      exact ⟨rest', rfl, rfl⟩
    · rintro ⟨rest, e, rfl⟩
      cases e
      rfl

/-- The table holds the threads that were not drawn last, with what they
have left. -/
theorem table_entries : (s.table numTids).entries =
    ((List.range numTids).filter fun tid => tid ∉ s.lastTids).map
      fun tid => (tid, (s.iterators tid).length) := by
  have key : ∀ (l : List ℕ) (d : DistributionTable),
      (l.foldl (fun d tid => d.addEntry tid (s.iterators tid).length) d).entries =
        d.entries ++ l.map fun tid => (tid, (s.iterators tid).length) := by
    intro l
    induction l with
    | nil => simp
    | cons a l ih =>
      intro d
      rw [List.foldl_cons, ih]
      simp [DistributionTable.addEntry]
  rw [table, key]
  rfl

/-- A thread the table yields is one of the group's. -/
theorem rndNumToKey_lt {v : ℕ} {tid : ℕ} (h : (s.table numTids).rndNumToKey v = some tid) :
    tid < numTids := by
  obtain ⟨prob, -, hmem⟩ := DistributionTable.toKey_mem h
  rw [table_entries, List.mem_map] at hmem
  obtain ⟨u, hu, he⟩ := hmem
  cases he
  simpa using (List.mem_filter.mp hu).1

/-- The partner's thread is another one. -/
theorem drawPartner_ne {nextTid asyncTid : ℕ}
    (h : drawPartner (s.table numTids) nextTid t = some (some asyncTid, t')) :
    asyncTid ≠ nextTid ∧ asyncTid < numTids := by
  unfold drawPartner at h
  split at h
  · obtain ⟨b, t₁, -, h⟩ := Gen.bind_eq_some.mp h
    cases b
    · cases h
    · simp only [if_true] at h
      obtain ⟨v, t₂, hv, h⟩ := Gen.bind_eq_some.mp h
      obtain ⟨tid, t₃, htid, h⟩ := Gen.bind_eq_some.mp h
      obtain ⟨hkey, rfl⟩ := Gen.ofOption_eq_some.mp htid
      cases h
      -- the draw passed the filter, so its key is not the one filtered out
      have hf := rndUpto_filter hv
      rw [VectorFilter.filter, hkey] at hf
      exact ⟨by simpa [VectorFilter.add] using hf, rndNumToKey_lt hkey⟩
  · cases h

/-- **What one iteration does**: it takes the first node one thread has
left, or the first nodes two threads have left. -/
theorem step_cases (h : step numTids s t = some (some s', t')) :
    (∃ tid n rest, tid < numTids ∧ s.iterators tid = n :: rest ∧
      s' = ⟨Function.update s.iterators tid rest, [tid], s.order ++ [⟨n, none⟩]⟩) ∨
    (∃ tid n rest tid' p rest', tid < numTids ∧ tid' < numTids ∧ tid' ≠ tid ∧
      s.iterators tid = n :: rest ∧ s.iterators tid' = p :: rest' ∧
      s' = ⟨Function.update (Function.update s.iterators tid rest) tid' rest', [tid, tid'],
        s.order ++ [⟨n, some p⟩]⟩) := by
  unfold step at h
  simp only at h
  split at h
  · cases h
  obtain ⟨v, t₁, -, h⟩ := Gen.bind_eq_some.mp h
  obtain ⟨tid, t₂, htid, h⟩ := Gen.bind_eq_some.mp h
  obtain ⟨hkey, rfl⟩ := Gen.ofOption_eq_some.mp htid
  have hlt := rndNumToKey_lt hkey
  obtain ⟨⟨n, its⟩, t₃, htake, h⟩ := Gen.bind_eq_some.mp h
  obtain ⟨hnode, rfl⟩ := Gen.ofOption_eq_some.mp htake
  obtain ⟨rest, hrest, rfl⟩ := take_eq_some.mp hnode
  obtain ⟨partner, t₄, hpartner, h⟩ := Gen.bind_eq_some.mp h
  cases partner with
  | none =>
    cases h
    exact .inl ⟨tid, n, rest, hlt, hrest, rfl⟩
  | some tid' =>
    obtain ⟨hne, hlt'⟩ := drawPartner_ne hpartner
    obtain ⟨⟨p, its'⟩, t₅, htake', h⟩ := Gen.bind_eq_some.mp h
    obtain ⟨hnode', rfl⟩ := Gen.ofOption_eq_some.mp htake'
    obtain ⟨rest', hrest', rfl⟩ := take_eq_some.mp hnode'
    cases h
    refine .inr ⟨tid, n, rest, tid', p, rest', hlt, hlt', hne, hrest, ?_, rfl⟩
    simpa [Function.update_of_ne hne] using hrest'

/-! ## What the loop keeps -/

/-- **The loop invariant**: for each thread, what is in the ordering
followed by what the iterator has left is the thread's list, and pairs are
of two threads. -/
structure Inv (nodes : List ℕ) (s : Schedule) : Prop where
  split : ∀ tid, (s.order.flatMap Entry.ids).filter (fun n => tidOf nodes n = tid) ++
    s.iterators tid = sbGraph nodes tid
  valid : ∀ n ∈ s.order.flatMap Entry.ids, n < nodes.length
  partner_tid : ∀ e ∈ s.order, ∀ p ∈ e.partner, tidOf nodes p ≠ tidOf nodes e.node

theorem inv_start : Inv nodes (start nodes) := ⟨by simp [start], by simp [start], by simp [start]⟩

/-- What an iterator has left is of its thread. -/
theorem Inv.mem_iterators (hi : Inv nodes s) (tid n : ℕ)
    (hn : n ∈ s.iterators tid) : n < nodes.length ∧ tidOf nodes n = tid := by
  have : n ∈ sbGraph nodes tid := by
    rw [← hi.split tid]
    exact List.mem_append_right _ hn
  simpa [sbGraph] using this

/-- Taking one thread's first node keeps the invariant. -/
theorem Inv.single (hi : Inv nodes s) {tid : ℕ} {n : ℕ} {rest : List ℕ}
    {last : List ℕ} (h : s.iterators tid = n :: rest) :
    Inv nodes ⟨Function.update s.iterators tid rest, last, s.order ++ [⟨n, none⟩]⟩ := by
  obtain ⟨hlt, htid⟩ := hi.mem_iterators tid n (by simp [h])
  refine ⟨fun u => ?_, fun m hm => ?_, fun e he q hq => ?_⟩
  · rw [← hi.split u]
    rcases eq_or_ne u tid with rfl | hne
    · simp [Entry.ids, h, htid]
    · simp [Entry.ids, Function.update_of_ne hne, htid, hne.symm]
  · rw [List.flatMap_append, List.mem_append] at hm
    rcases hm with hm | hm
    · exact hi.valid m hm
    · obtain rfl : m = n := by simpa [Entry.ids] using hm
      exact hlt
  · rcases List.mem_append.mp he with he | he
    · exact hi.partner_tid e he q hq
    · obtain rfl : e = ⟨n, none⟩ := by simpa using he
      cases hq

/-- Two single nodes of two threads may as well be a pair. -/
theorem Inv.pair {its : ℕ → List ℕ} {last : List ℕ} {order : List Entry} {n p : ℕ}
    (hi : Inv nodes ⟨its, last, order ++ [⟨n, none⟩] ++ [⟨p, none⟩]⟩)
    (hne : tidOf nodes p ≠ tidOf nodes n) : Inv nodes ⟨its, last, order ++ [⟨n, some p⟩]⟩ := by
  have hids : (order ++ [(⟨n, some p⟩ : Entry)]).flatMap Entry.ids =
      (order ++ [(⟨n, none⟩ : Entry)] ++ [(⟨p, none⟩ : Entry)]).flatMap Entry.ids := by
    simp [Entry.ids]
  refine ⟨fun u => ?_, fun m hm => hi.valid m (hids ▸ hm), fun e he q hq => ?_⟩
  · rw [hids]
    exact hi.split u
  · rcases List.mem_append.mp he with he | he
    · exact hi.partner_tid e (by simp [he]) q hq
    · obtain rfl : e = ⟨n, some p⟩ := by simpa using he
      obtain rfl : p = q := by simpa using hq
      exact hne

theorem Inv.step (hi : Inv nodes s) (h : step numTids s t = some (some s', t')) :
    Inv nodes s' := by
  rcases step_cases h with ⟨tid, n, rest, -, hn, rfl⟩ |
    ⟨tid, n, rest, tid', p, rest', -, -, hne, hn, hp, rfl⟩
  · exact hi.single hn
  · obtain ⟨-, htid⟩ := hi.mem_iterators tid n (by simp [hn])
    obtain ⟨-, htid'⟩ := hi.mem_iterators tid' p (by simp [hp])
    have hmid : Inv nodes ⟨Function.update s.iterators tid rest, [tid],
        s.order ++ [⟨n, none⟩]⟩ := hi.single hn
    have hp' : Function.update s.iterators tid rest tid' = p :: rest' := by
      rwa [Function.update_of_ne hne]
    refine (hmid.single hp').pair ?_
    rwa [htid', htid]

theorem Inv.loop {k : ℕ} (hi : Inv nodes s) (h : loop numTids k s t = some (s', t')) :
    Inv nodes s' := by
  induction k generalizing s t with
  | zero => cases h
  | succ k ih =>
    obtain ⟨o, t₁, hstep, h⟩ := Gen.bind_eq_some.mp h
    cases o with
    | none =>
      cases h
      exact hi
    | some s₁ => exact ih (hi.step hstep) h

/-! ## The loop ends -/

/-- How many nodes the iterators have left. -/
def left (numTids : ℕ) (s : Schedule) : ℕ :=
  ((List.range numTids).map fun tid => (s.iterators tid).length).sum

/-- Taking a node leaves one less. -/
theorem left_take {tid : ℕ} {n : ℕ} {rest : List ℕ} (hlt : tid < numTids)
    (h : s.iterators tid = n :: rest) (last : List ℕ) (order : List Entry) :
    left numTids ⟨Function.update s.iterators tid rest, last, order⟩ + 1 = left numTids s := by
  unfold left
  have key : ∀ l : List ℕ, l.Nodup → tid ∈ l →
      (l.map fun u => (Function.update s.iterators tid rest u).length).sum + 1 =
        (l.map fun u => (s.iterators u).length).sum := by
    intro l
    induction l with
    | nil => simp
    | cons u l ih =>
      intro hnd hmem
      obtain ⟨hu, hnd⟩ := List.nodup_cons.mp hnd
      rw [List.map_cons, List.sum_cons, List.map_cons, List.sum_cons]
      rcases List.mem_cons.mp hmem with rfl | hmem
      · have hrest : l.map (fun v => (Function.update s.iterators tid rest v).length) =
            l.map fun v => (s.iterators v).length :=
          List.map_congr_left fun v hv => by
            rw [Function.update_of_ne (ne_of_mem_of_not_mem hv hu)]
        rw [hrest, Function.update_self, h, List.length_cons]
        omega
      · rw [Function.update_of_ne (ne_of_mem_of_not_mem hmem hu).symm, ← ih hnd hmem]
        omega
  exact key _ List.nodup_range (List.mem_range.mpr hlt)

theorem left_step (h : step numTids s t = some (some s', t')) :
    left numTids s' < left numTids s := by
  rcases step_cases h with ⟨tid, n, rest, hlt, hn, rfl⟩ |
    ⟨tid, n, rest, tid', p, rest', hlt, hlt', hne, hn, hp, rfl⟩
  · have := left_take hlt hn [tid] (s.order ++ [⟨n, none⟩])
    omega
  · have h1 := left_take hlt hn [] []
    have h2 := left_take (s := ⟨Function.update s.iterators tid rest, [], []⟩) (n := p) hlt'
      (by simpa [Function.update_of_ne hne] using hp) [tid, tid']
      (s.order ++ [⟨n, some p⟩])
    simp only at h2
    omega

/-- More than the nodes left is enough: further iterations change nothing. -/
theorem loop_succ {k : ℕ} (h : left numTids s < k) : loop numTids k s = loop numTids (k + 1) s := by
  induction k generalizing s with
  | zero => omega
  | succ k ih =>
    funext t
    rw [loop, loop]
    change (step numTids s t).bind _ = (step numTids s t).bind _
    cases hstep : step numTids s t with
    | none => rfl
    | some p =>
      obtain ⟨o, t₁⟩ := p
      cases o with
      | none => rfl
      | some s₁ =>
        have := left_step hstep
        exact congrFun (ih (by omega)) t₁

/-- The threads' lists together hold no more than the registered nodes. -/
theorem left_start_le (nodes : List ℕ) (numTids : ℕ) :
    left numTids (start nodes) ≤ nodes.length := by
  have hsplit : ∀ (T : ℕ) (l : List ℕ), (l.filter fun n => tidOf nodes n < T + 1).length =
      (l.filter fun n => tidOf nodes n < T).length +
        (l.filter fun n => tidOf nodes n = T).length := by
    intro T l
    induction l with
    | nil => rfl
    | cons n l ih =>
      simp only [List.filter_cons, decide_eq_true_eq]
      split_ifs <;> simp only [List.length_cons, ih] <;> omega
  have key : ∀ T, ((List.range T).map fun tid => (sbGraph nodes tid).length).sum =
      ((List.range nodes.length).filter fun n => tidOf nodes n < T).length := by
    intro T
    induction T with
    | zero => simp
    | succ T ih =>
      rw [List.range_succ, List.map_append, List.sum_append, ih, hsplit]
      simp [sbGraph]
  have hle := List.length_filter_le (fun n => decide (tidOf nodes n < numTids))
    (List.range nodes.length)
  rw [List.length_range] at hle
  exact (key numTids).trans_le hle

end Schedule

/-- **`CreateOrdering`'s loop ends**: it never runs out of iterations. -/
theorem createOrdering_eq (nodes : List ℕ) (k : ℕ) : createOrdering nodes = do
    let s ← Schedule.loop (maxTid nodes + 1) (nodes.length + 1 + k) (Schedule.start nodes)
    return s.order := by
  have key : Schedule.loop (maxTid nodes + 1) (nodes.length + 1) (Schedule.start nodes) =
      Schedule.loop (maxTid nodes + 1) (nodes.length + 1 + k) (Schedule.start nodes) := by
    induction k with
    | zero => rfl
    | succ k ih =>
      rw [ih]
      refine Schedule.loop_succ ?_
      have := Schedule.left_start_le nodes (maxTid nodes + 1)
      omega
  rw [createOrdering, key]

/-! ## The ordering -/

/-- Where each key's entries appear in order, all entries of one key do. -/
theorem pairwise_of_filter {f : ℕ → ℕ} {l : List ℕ}
    (h : ∀ t, (l.filter fun n => f n = t).Pairwise (· < ·)) :
    l.Pairwise fun m n => f m = f n → m < n := by
  induction l with
  | nil => exact List.Pairwise.nil
  | cons a l ih =>
    refine List.pairwise_cons.mpr ⟨fun b hb hab => ?_, ih fun t => ?_⟩
    · have ha := h (f a)
      rw [List.filter_cons_of_pos (by simp), List.pairwise_cons] at ha
      exact ha.1 b (by simp [hb, hab])
    · exact (h t).sublist ((List.sublist_cons_self a l).filter _)

/-- **Every ordering `CreateOrdering` draws is an ordering.** -/
theorem createOrdering_ordered {nodes : List ℕ} {order : List Entry} {t t' : Tape}
    (h : createOrdering nodes t = some (order, t')) : Ordered nodes order := by
  obtain ⟨s, t₁, hloop, h⟩ := Gen.bind_eq_some.mp h
  cases h
  have hi := Schedule.inv_start.loop hloop
  refine ⟨hi.valid, pairwise_of_filter fun tid => ?_, hi.partner_tid⟩
  have hsb : (sbGraph nodes tid).Pairwise (· < ·) := List.pairwise_lt_range.filter _
  rw [← hi.split tid] at hsb
  exact (List.pairwise_append.mp hsb).1

end MessagePassing

end CLSmith
