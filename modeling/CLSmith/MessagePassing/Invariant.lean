import CLSmith.MessagePassing.Kernel
/-!
# The invariant of the group

Which nodes have signalled is a front of the relay, and the flags count it.
A thread's place in a loop says what its test has seen (`Unlocking`,
`NodeAt`, `EndAt`), and what it has done and has left says which of its
nodes have signalled and which have updated (`History`): a node it has
passed has signalled, and one it is still to come to for the first time,
with no later node of its own passed before, has not.
-/

namespace CLSmith

namespace MessagePassing

open Common

/-! ## A step in a loop -/

section Loops

variable {K : Kernel} {S : Finset ℕ} {flags : Flag → ℕ} {body tail : List Instr}
  {unlocks us : List (ℕ × Lock)} {lock : Lock} {n t last : ℕ} {pos : Position} {mid : Option ℕ}

/-- **In the unlocks of a loop**, `tail` being what follows them. It is at the test of
one of them, with some of its checks read, or past the last. -/
inductive Unlocking (K : Kernel) (S : Finset ℕ) (unlocks : List (ℕ × Lock)) (tail : List Instr) :
    Position → Prop
  | test {x : ℕ × Lock} {us : List (ℕ × Lock)} {left : List Constraint}
      (hus : ∀ y ∈ x :: us, y ∈ unlocks) (h : K.relay.Testing S x.1 left) :
      Unlocking K S unlocks tail (unlockIfs (x :: us) ++ tail, left)
  | done : Unlocking K S unlocks tail (enter tail)

/-- **In the loop of an ordered node**, up to its signal; the node named
has updated. -/
inductive NodeAt (K : Kernel) (S : Finset ℕ) (n : ℕ) (unlocks : List (ℕ × Lock)) (lock : Lock) :
    Option ℕ → Position → Prop
  | top : NodeAt K S n unlocks lock none (enter (nodeBody K.addr K.code n))
  | early {left : List Constraint}
      (h : ∀ c ∈ earlyBreak K.addr lock, c ∈ left ∨ c.2 ≤ K.relay.count S c.1) :
      NodeAt K S n unlocks lock none (.breakIf (earlyBreak K.addr lock) ::
        (unlockIfs unlocks ++ .continueUnless lock.checks :: Kernel.own n lock), left)
  | unlock {pos : Position}
      (h : Unlocking K S unlocks (.continueUnless lock.checks :: Kernel.own n lock) pos) :
      NodeAt K S n unlocks lock none pos
  | wait {left : List Constraint} (h : K.relay.Testing S n left) :
      NodeAt K S n unlocks lock none (.continueUnless lock.checks :: Kernel.own n lock, left)
  | update (h : K.relay.Turn S n) : NodeAt K S n unlocks lock none (Kernel.own n lock, [])
  | signal (h : K.relay.Turn S n) :
      NodeAt K S n unlocks lock (some n) (makeSignal n lock.signal, [])

/-- In the loop of a node, past its signal: only the fence and the `break` are left. -/
inductive Past : Position → Prop
  | fence : Past ([.fence, .breakLoop], [])
  | leave : Past ([.breakLoop], [])

/-- **In the end checks of a thread**: at their beginning, at an unlock, at the break
with some of its checks read, or at the end of a round. -/
inductive EndAt (K : Kernel) (S : Finset ℕ) (t : ℕ) (unlocks : List (ℕ × Lock)) (lock : Lock) :
    Position → Prop
  | top : EndAt K S t unlocks lock (enter (endBody K.addr K.code t))
  | unlock {pos : Position}
      (h : Unlocking K S unlocks [.fence, .breakIf (earlyBreak K.addr lock)] pos) :
      EndAt K S t unlocks lock pos
  | last {left : List Constraint}
      (h : ∀ c ∈ earlyBreak K.addr lock, c ∈ left ∨ c.2 ≤ K.relay.count S c.1) :
      EndAt K S t unlocks lock ([.breakIf (earlyBreak K.addr lock)], left)
  | wrap : EndAt K S t unlocks lock ([], [])

/-- Coming to the unlocks left of a loop. -/
theorem Unlocking.enter (hlocks : ∀ x ∈ unlocks, x ∈ K.locks) (hus : ∀ y ∈ us, y ∈ unlocks) :
    Unlocking K S unlocks tail (enter (unlockIfs us ++ tail)) := by
  cases us with
  | nil => exact .done
  | cons x us =>
    have hx := hlocks x (hus x (by simp))
    have htest : K.relay.Testing S x.1 (K.relay.checks x.1) :=
      .start (Kernel.mem_relay.mpr ⟨x.2, hx⟩)
    rw [Kernel.relay_checks hx] at htest
    exact .test hus htest

/-- **A step in the unlocks**: on to another place in them, out of them, or
the signal of a node they unlock, in its turn. -/
theorem Unlocking.step (body : List Instr) (hfront : K.relay.Front S)
    (hflags : ∀ f, flags f = K.relay.count S f) (hlocks : ∀ x ∈ unlocks, x ∈ K.locks)
    (h : Unlocking K S unlocks tail pos) :
    pos = CLSmith.MessagePassing.enter tail ∨
    (∃ pos', stepLoop flags body pos = ⟨.none, some pos'⟩ ∧ Unlocking K S unlocks tail pos') ∨
    ∃ x ∈ unlocks, K.relay.Turn S x.1 ∧ ∃ pos',
      stepLoop flags body pos = ⟨.signal x.1 x.2.signal, some pos'⟩ ∧
        ∀ S', Unlocking K S' unlocks tail pos' := by
  cases h with
  | done => exact .inl rfl
  | @test x us left hus h =>
    right
    have hx := hlocks x (hus x (by simp))
    have hus' : ∀ y ∈ us, y ∈ unlocks := fun y hy => hus y (List.mem_cons_of_mem _ hy)
    cases left with
    | nil =>
      exact .inr ⟨x, hus x (by simp), h.turn hfront (Kernel.mem_relay.mpr ⟨x.2, hx⟩), _, rfl,
        fun S' => .enter hlocks hus'⟩
    | cons c left =>
      refine .inl ⟨_, rfl, ?_⟩
      split
      · next hc => exact .test hus (h.next hfront (by rw [← hflags]; exact hc))
      · exact .enter hlocks hus'

/-- **What a step in a node's loop can be.** Beside quiet steps these are leaving,
when the node is through; unlocking another node, updating and signalling, each in the
turn of the node. -/
inductive NodeStep (K : Kernel) (S : Finset ℕ) (n : ℕ) (unlocks : List (ℕ × Lock)) (lock : Lock) :
    Option ℕ → Outcome → Prop
  | quiet {mid : Option ℕ} {pos' : Position} (h : NodeAt K S n unlocks lock mid pos') :
      NodeStep K S n unlocks lock mid ⟨.none, some pos'⟩
  | leave (h : n ∈ S) : NodeStep K S n unlocks lock none ⟨.none, none⟩
  | unlock {x : ℕ × Lock} {pos' : Position} (hx : x ∈ unlocks) (hturn : K.relay.Turn S x.1)
      (h : ∀ S', NodeAt K S' n unlocks lock none pos') :
      NodeStep K S n unlocks lock none ⟨.signal x.1 x.2.signal, some pos'⟩
  | update {pos' : Position} (hturn : K.relay.Turn S n)
      (h : NodeAt K S n unlocks lock (some n) pos') :
      NodeStep K S n unlocks lock none ⟨.update n, some pos'⟩
  | signal {pos' : Position} (hturn : K.relay.Turn S n) (h : Past pos') :
      NodeStep K S n unlocks lock (some n) ⟨.signal n lock.signal, some pos'⟩

/-- The early exit of a node's loop is taken only when the node is through. -/
theorem mem_of_earlyBreak (hfront : K.relay.Front S) (hl : (n, lock) ∈ K.locks)
    (h : ∀ c ∈ earlyBreak K.addr lock, c.2 ≤ K.relay.count S c.1) : n ∈ S := by
  have hsig := h lock.signal (by simp [earlyBreak])
  rw [Kernel.lock_signal hl] at hsig
  exact (hfront.mem_iff_value_le (Kernel.mem_relay.mpr ⟨lock, hl⟩)).mpr hsig

/-- And then it is there to take. -/
theorem earlyBreak_le (hfront : K.relay.Front S) (hl : (n, lock) ∈ K.locks) (hn : n ∈ S)
    {c : Constraint} (hc : c ∈ earlyBreak K.addr lock) : c.2 ≤ K.relay.count S c.1 := by
  rcases (mem_setInsert K.addr).mp hc with rfl | hc
  · rw [Kernel.lock_signal hl]
    exact hfront.value_le hn
  · rw [← Kernel.relay_checks hl] at hc
    exact hfront.check_le hn hc

theorem NodeAt.step (hfront : K.relay.Front S) (hflags : ∀ f, flags f = K.relay.count S f)
    (hc : K.NodeCode n unlocks lock) (h : NodeAt K S n unlocks lock mid pos) :
    NodeStep K S n unlocks lock mid (stepLoop flags (nodeBody K.addr K.code n) pos) := by
  have hlocks : ∀ x ∈ unlocks, x ∈ K.locks := fun x hx => ((hc.mem_unlocks x).mp hx).1
  have hn : n ∈ K.relay.nodes := Kernel.mem_relay.mpr ⟨lock, hc.lock_mem⟩
  have htest : K.relay.Testing S n (K.relay.checks n) := .start hn
  rw [Kernel.relay_checks hc.lock_mem] at htest
  -- also after the last unlock, which falls through to the first test
  have hstep_wait : ∀ left, K.relay.Testing S n left → NodeStep K S n unlocks lock none
      (stepLoop flags (nodeBody K.addr K.code n)
        (.continueUnless lock.checks :: Kernel.own n lock, left)) := by
    intro left h
    cases left with
    | nil => exact .quiet (.update (h.turn hfront hn))
    | cons c left =>
      simp only [stepLoop]
      split
      · next he => exact .quiet (.wait (h.next hfront (by rw [← hflags]; exact he)))
      · exact .quiet .top
  cases h with
  | top =>
    rw [hc.body]
    exact .quiet (.early fun c hc => .inl hc)
  | @early left h =>
    cases left with
    | nil =>
      -- every flag is past what the node signals, so that it has signalled
      exact .leave (mem_of_earlyBreak hfront hc.lock_mem fun c hc =>
        (h c hc).resolve_left (by simp))
    | cons c left =>
      simp only [stepLoop]
      split
      · next hle =>
        refine .quiet (.early fun d hd => ?_)
        rcases h d hd with hl | hl
        · rcases List.mem_cons.mp hl with rfl | hl
          · exact .inr (by rw [← hflags]; exact hle)
          · exact .inl hl
        · exact .inr hl
      · exact .quiet (.unlock (.enter hlocks fun y hy => hy))
  | unlock h =>
    rcases h.step (nodeBody K.addr K.code n) hfront hflags hlocks with
      rfl | ⟨pos', ho, h'⟩ | ⟨x, hx, hturn, pos', ho, h'⟩
    · exact hstep_wait _ htest
    · rw [ho]
      exact .quiet (.unlock h')
    · rw [ho]
      exact .unlock hx hturn fun S' => .unlock (h' S')
  | wait h => exact hstep_wait _ h
  | update h => exact .update h (.signal h)
  | signal h => exact .signal h .fence

/-- Past its signal a node's loop only leaves. -/
theorem Past.step (flags : Flag → ℕ) (body : List Instr) (h : Past pos) :
    stepLoop flags body pos = ⟨.none, none⟩ ∨
      ∃ pos', stepLoop flags body pos = ⟨.none, some pos'⟩ ∧ Past pos' := by
  cases h with
  | fence => exact .inr ⟨_, rfl, .leave⟩
  | leave => exact .inl rfl

/-- **What a step in the end checks can be**: the same as in a node's loop, but for an
update and a signal of its own. -/
inductive EndStep (K : Kernel) (S : Finset ℕ) (t : ℕ) (unlocks : List (ℕ × Lock)) (last : ℕ)
    (lock : Lock) : Outcome → Prop
  | quiet {pos' : Position} (h : EndAt K S t unlocks lock pos') :
      EndStep K S t unlocks last lock ⟨.none, some pos'⟩
  | leave (h : last ∈ S) : EndStep K S t unlocks last lock ⟨.none, none⟩
  | unlock {x : ℕ × Lock} {pos' : Position} (hx : x ∈ unlocks) (hturn : K.relay.Turn S x.1)
      (h : ∀ S', EndAt K S' t unlocks lock pos') :
      EndStep K S t unlocks last lock ⟨.signal x.1 x.2.signal, some pos'⟩

theorem EndAt.step (hfront : K.relay.Front S) (hflags : ∀ f, flags f = K.relay.count S f)
    (hc : K.EndCode t unlocks last lock) (h : EndAt K S t unlocks lock pos) :
    EndStep K S t unlocks last lock (stepLoop flags (endBody K.addr K.code t) pos) := by
  have hlocks : ∀ x ∈ unlocks, x ∈ K.locks := fun x hx => ((hc.mem_unlocks x).mp hx).1
  cases h with
  | top =>
    rw [hc.body]
    exact .quiet (.unlock (.enter hlocks fun y hy => hy))
  | unlock h =>
    -- The unlocks are through, or go on, or signal a node whose turn has come.
    rcases h.step (endBody K.addr K.code t) hfront hflags hlocks with
      rfl | ⟨pos', ho, h'⟩ | ⟨x, hx, hturn, pos', ho, h'⟩
    · exact .quiet (.last fun c hc => .inl hc)
    · rw [ho]
      exact .quiet (.unlock h')
    · rw [ho]
      exact .unlock hx hturn fun S' => .unlock (h' S')
  | @last left h =>
    cases left with
    | nil =>
      exact .leave (mem_of_earlyBreak hfront hc.lock_mem fun c hc =>
        (h c hc).resolve_left (by simp))
    | cons c left =>
      simp only [stepLoop]
      split
      · next hle =>
        refine .quiet (.last fun d hd => ?_)
        rcases h d hd with hl | hl
        · rcases List.mem_cons.mp hl with rfl | hl
          · exact .inr (by rw [← hflags]; exact hle)
          · exact .inl hl
        · exact .inr hl
      · exact .quiet .wrap
  | wrap => exact .quiet .top

/-! ## Another thread's signal -/

section Other

variable {m : ℕ}

theorem Unlocking.take (hfront : K.relay.Front S) (hm : K.relay.Turn S m)
    (hlocks : ∀ x ∈ unlocks, x ∈ K.locks) (hne : ∀ x ∈ unlocks, m ≠ x.1)
    (h : Unlocking K S unlocks tail pos) : Unlocking K (insert m S) unlocks tail pos := by
  cases h with
  | done => exact .done
  | @test x us left hus h =>
    have hx := hus x (by simp)
    exact .test hus (h.take hfront hm (Kernel.mem_relay.mpr ⟨x.2, hlocks x hx⟩) (hne x hx))

theorem NodeAt.take (hfront : K.relay.Front S) (hm : K.relay.Turn S m)
    (hc : K.NodeCode n unlocks lock) (hne : K.tid m ≠ K.tid n)
    (h : NodeAt K S n unlocks lock mid pos) : NodeAt K (insert m S) n unlocks lock mid pos := by
  have hmn : m ≠ n := fun he => hne (by rw [he])
  cases h with
  | top => exact .top
  | early h =>
    exact .early fun c hc => (h c hc).imp_right fun hle =>
      Nat.le_trans hle (Relay.count_mono (Finset.subset_insert m S))
  | unlock h =>
    refine .unlock (h.take hfront hm (fun x hx => ((hc.mem_unlocks x).mp hx).1) fun x hx he => ?_)
    exact hne (he ▸ ((hc.mem_unlocks x).mp hx).2.1)
  | wait h => exact .wait (h.take hfront hm (Kernel.mem_relay.mpr ⟨lock, hc.lock_mem⟩) hmn)
  | update h => exact .update (h.keep hmn)
  | signal h => exact .signal (h.keep hmn)

theorem EndAt.take (hfront : K.relay.Front S) (hm : K.relay.Turn S m)
    (hc : K.EndCode t unlocks last lock) (hne : K.tid m ≠ t)
    (h : EndAt K S t unlocks lock pos) : EndAt K (insert m S) t unlocks lock pos := by
  cases h with
  | top => exact .top
  | unlock h =>
    refine .unlock (h.take hfront hm (fun x hx => ((hc.mem_unlocks x).mp hx).1) fun x hx he => ?_)
    exact hne (he ▸ ((hc.mem_unlocks x).mp hx).2)
  | last h =>
    exact .last fun c hc => (h c hc).imp_right fun hle =>
      Nat.le_trans hle (Relay.count_mono (Finset.subset_insert m S))
  | wrap => exact .wrap

end Other

end Loops

/-! ## What a thread has done and has left -/

section Histories

variable {K : Kernel} {S U : Finset ℕ} {t m n : ℕ} {done todo : List Stmt} {mid : Option ℕ}

/-- The node `n` of thread `t` comes after every node of the thread visited
in `past`. -/
def Fresh (K : Kernel) (t : ℕ) (past : List Stmt) (n : ℕ) : Prop :=
  ∀ m, Stmt.visit m ∈ past → m ∈ K.relay.nodes → K.tid m = t → m < n

/-- **A thread's history**: with `S` the nodes that have signalled and `U`
those that have updated, the statements it is through with and those it
has left. A fresh visit of a node is where the node updates; `mid` is the
node that has updated in the visit under way. -/
structure History (K : Kernel) (S U : Finset ℕ) (t : ℕ) (done todo : List Stmt)
    (mid : Option ℕ) : Prop where
  program : K.stmts t = done ++ todo
  visited : ∀ m, Stmt.visit m ∈ done → m ∈ K.relay.nodes → K.tid m = t → m ∈ S
  ended : Stmt.endChecks ∈ done → ∀ n ∈ K.relay.nodes, K.tid n = t → n ∈ S
  ahead : ∀ p n q, todo = p ++ .visit n :: q → n ∈ K.relay.nodes → K.tid n = t →
    Fresh K t (done ++ p) n → n ∉ S
  updated : ∀ n ∈ U, K.tid n = t → mid = some n ∨
    ∃ p q, done = p ++ .visit n :: q ∧ Fresh K t p n
  past : ∀ p n q, done = p ++ .visit n :: q → n ∈ K.relay.nodes → K.tid n = t →
    Fresh K t p n → n ∈ U
  midway : ∀ n ∈ mid, n ∈ U ∧ Fresh K t done n

theorem history_start : History K ∅ ∅ t [] (K.stmts t) none := by
  refine ⟨rfl, by simp, by simp, by simp, by simp, fun p n q h => ?_, by simp⟩
  simp at h

/-- In its turn a node of the thread has not updated, unless it has in the
visit under way. -/
theorem History.notMem_updated (h : History K S U t done todo none) (hn : n ∈ K.relay.nodes)
    (ht : K.tid n = t) (hS : n ∉ S) : n ∉ U := by
  intro hU
  rcases h.updated n hU ht with hmid | ⟨p, q, rfl, -⟩
  · cases hmid
  · exact hS (h.visited n (by simp) hn ht)

/-- A node that has not signalled comes after all its thread has visited. -/
theorem History.fresh (h : History K S U t done todo mid) (hfront : K.relay.Front S)
    (hn : n ∈ K.relay.nodes) (ht : K.tid n = t) (hS : n ∉ S) : Fresh K t done n := by
  intro m hm hmR hmt
  have hmS := h.visited m hm hmR hmt
  have hne : m ≠ n := fun he => hS (he ▸ hmS)
  by_contra hlt
  have hstep := (Kernel.step_lt_iff hn hmR (ht.trans hmt.symm)).mpr (by omega)
  exact hS (hfront.closed m hmS n hn hstep)

/-- Another thread's signal leaves the history as it is. -/
theorem History.otherSignal (h : History K S U t done todo mid) (hm : K.tid m ≠ t) :
    History K (insert m S) U t done todo mid := by
  have hmn : ∀ n, K.tid n = t → n ≠ m := fun n hn he => hm (he ▸ hn)
  exact ⟨h.program, fun n hn hR ht => Finset.mem_insert_of_mem (h.visited n hn hR ht),
    fun he n hn ht => Finset.mem_insert_of_mem (h.ended he n hn ht),
    fun p n q he hn ht hf hS => h.ahead p n q he hn ht hf
      (Finset.mem_of_mem_insert_of_ne hS (hmn n ht)),
    h.updated, h.past, h.midway⟩

/-- And so does its update. -/
theorem History.otherUpdate (h : History K S U t done todo mid) (hm : K.tid m ≠ t) :
    History K S (insert m U) t done todo mid := by
  have hmn : ∀ n, K.tid n = t → n ≠ m := fun n hn he => hm (he ▸ hn)
  exact ⟨h.program, h.visited, h.ended, h.ahead,
    fun n hn ht => h.updated n (Finset.mem_of_mem_insert_of_ne hn (hmn n ht)) ht,
    fun p n q he hn ht hf => Finset.mem_insert_of_mem (h.past p n q he hn ht hf),
    fun n hn => ⟨Finset.mem_insert_of_mem (h.midway n hn).1, (h.midway n hn).2⟩⟩

/-- **The thread passes a statement**: a node it passes has signalled, and
all its nodes have when it passes the end checks. -/
theorem History.pass {st : Stmt} (h : History K S U t done (st :: todo) none)
    (hvisit : ∀ n, st = .visit n → n ∈ K.relay.nodes → K.tid n = t → n ∈ S)
    (hend : st = .endChecks → ∀ n ∈ K.relay.nodes, K.tid n = t → n ∈ S) :
    History K S U t (done ++ [st]) todo none := by
  refine ⟨by simpa using h.program, fun m hm hR ht => ?_, fun he n hn ht => ?_,
    fun p n q he hn ht hf => ?_, fun n hn ht => ?_, fun p n q he hn ht hf => ?_, by simp⟩
  · rcases List.mem_append.mp hm with hm | hm
    · exact h.visited m hm hR ht
    · exact hvisit m (List.mem_singleton.mp hm).symm hR ht
  · rcases List.mem_append.mp he with he | he
    · exact h.ended he n hn ht
    · exact hend (List.mem_singleton.mp he).symm n hn ht
  · exact h.ahead (st :: p) n q (by simp [he]) hn ht (by simpa using hf)
  · rcases h.updated n hn ht with hmid | ⟨p, q, rfl, hf⟩
    · cases hmid
    · exact .inr ⟨p, q ++ [st], by simp, hf⟩
  · rcases List.eq_nil_or_concat q with rfl | ⟨q, z, rfl⟩
    · -- the visit passed: were it fresh, the node would not have signalled
      obtain ⟨rfl, hst⟩ := List.append_inj' he rfl
      obtain rfl : st = .visit n := by simpa using hst
      exact absurd (hvisit n rfl hn ht) (h.ahead [] n todo rfl hn ht (by simpa using hf))
    · rw [List.concat_eq_append] at he
      have he' : done ++ [st] = (p ++ .visit n :: q) ++ [z] := by simpa using he
      exact h.past p n q (List.append_inj' he' rfl).1 hn ht hf

/-- **The thread updates the node it visits.** -/
theorem History.update (h : History K S U t done (.visit n :: todo) none)
    (hfront : K.relay.Front S) (hn : n ∈ K.relay.nodes) (ht : K.tid n = t) (hS : n ∉ S) :
    History K S (insert n U) t done (.visit n :: todo) (some n) := by
  refine ⟨h.program, h.visited, h.ended, h.ahead, fun m hm hmt => ?_,
    fun p m q he hmR hmt hf => Finset.mem_insert_of_mem (h.past p m q he hmR hmt hf),
    fun m hm => ?_⟩
  · rcases Finset.mem_insert.mp hm with rfl | hm
    · exact .inl rfl
    · rcases h.updated m hm hmt with hmid | hdone
      · cases hmid
      · exact .inr hdone
  · obtain rfl : n = m := Option.some.inj hm
    exact ⟨Finset.mem_insert_self n U, h.fresh hfront hn ht hS⟩

/-- **The thread signals the node it visits**, and is through with the
visit. -/
theorem History.signal (h : History K S U t done (.visit n :: todo) (some n)) (ht : K.tid n = t)
    (hn : n ∈ K.relay.nodes) : History K (insert n S) U t (done ++ [.visit n]) todo none := by
  obtain ⟨hU, hfresh⟩ := h.midway n rfl
  refine ⟨by simpa using h.program, fun m hm hR hmt => ?_, fun he m hm hmt => ?_,
    fun p m q he hmR hmt hf => ?_, fun m hm hmt => ?_, fun p m q he hmR hmt hf => ?_, by simp⟩
  · rcases List.mem_append.mp hm with hm | hm
    · exact Finset.mem_insert_of_mem (h.visited m hm hR hmt)
    · obtain rfl : m = n := by simpa using hm
      exact Finset.mem_insert_self m S
  · exact Finset.mem_insert_of_mem (h.ended (by simpa using he) m hm hmt)
  · have hlt : n < m := hf n (by simp) hn ht
    have hS := h.ahead (.visit n :: p) m q (by simp [he]) hmR hmt (by simpa using hf)
    exact fun hmem => hS (Finset.mem_of_mem_insert_of_ne hmem (by omega))
  · rcases h.updated m hm hmt with hmid | ⟨p, q, rfl, hf⟩
    · obtain rfl : n = m := Option.some.inj hmid
      exact .inr ⟨done, [], by simp, hfresh⟩
    · exact .inr ⟨p, q ++ [.visit n], by simp, hf⟩
  · rcases List.eq_nil_or_concat q with rfl | ⟨q, z, rfl⟩
    · obtain ⟨rfl, hst⟩ := List.append_inj' he rfl
      obtain rfl : n = m := by simpa using hst
      exact hU
    · rw [List.concat_eq_append] at he
      have he' : done ++ [.visit n] = (p ++ .visit m :: q) ++ [z] := by simpa using he
      exact h.past p m q (List.append_inj' he' rfl).1 hmR hmt hf

/-- **The thread unlocks one of its nodes**, with no fresh visit of it
still to come. -/
theorem History.unlock (h : History K S U t done todo mid)
    (hahead : ∀ p q, todo = p ++ .visit n :: q → ¬ Fresh K t (done ++ p) n) :
    History K (insert n S) U t done todo mid := by
  refine ⟨h.program, fun m hm hR ht => Finset.mem_insert_of_mem (h.visited m hm hR ht),
    fun he m hm ht => Finset.mem_insert_of_mem (h.ended he m hm ht),
    fun p m q he hm ht hf hS => ?_, h.updated, h.past, h.midway⟩
  rcases eq_or_ne m n with rfl | hne
  · exact hahead p q he hf
  · exact h.ahead p m q he hm ht hf (Finset.mem_of_mem_insert_of_ne hS hne)

end Histories

/-! ## A thread -/

section Threads

variable {K : Kernel} {S U : Finset ℕ} {t m n : ℕ} {done todo rest : List Stmt} {st : Stmt}
  {mid : Option ℕ} {th : Thread} {passed : ℕ} {pos : Position} {flags : Flag → ℕ}

/-- **Where a thread with `todo` left is**: in no loop, in that of the node it visits,
past the signal of that, or in its end checks. -/
inductive Control (K : Kernel) (S : Finset ℕ) (t : ℕ) (todo : List Stmt) :
    Option ℕ → Thread → Prop
  | idle {passed : ℕ} : Control K S t todo none ⟨todo, none, passed⟩
  | node {n passed : ℕ} {rest : List Stmt} {pos : Position} {mid : Option ℕ}
      {unlocks : List (ℕ × Lock)} {lock : Lock} (h : todo = .visit n :: rest) (ht : K.tid n = t)
      (hc : K.NodeCode n unlocks lock) (hat : NodeAt K S n unlocks lock mid pos) :
      Control K S t todo mid ⟨todo, some pos, passed⟩
  | past {n passed : ℕ} {pos : Position} (ht : K.tid n = t) (hn : n ∈ K.relay.nodes)
      (hat : Past pos) : Control K S t todo none ⟨.visit n :: todo, some pos, passed⟩
  | endChecks {last passed : ℕ} {rest : List Stmt} {pos : Position}
      {unlocks : List (ℕ × Lock)} {lock : Lock} (h : todo = .endChecks :: rest)
      (hc : K.EndCode t unlocks last lock) (hat : EndAt K S t unlocks lock pos) :
      Control K S t todo none ⟨todo, some pos, passed⟩

/-- **The invariant of a thread**: it has done what its history says, and control is
where that leaves it. -/
def Local (K : Kernel) (S U : Finset ℕ) (t : ℕ) (th : Thread) : Prop :=
  ∃ done todo mid, History K S U t done todo mid ∧ Control K S t todo mid th

theorem local_start : Local K ∅ ∅ t ⟨K.stmts t, none, passed⟩ :=
  ⟨[], K.stmts t, none, history_start, .idle⟩

theorem Local.otherSignal (hfront : K.relay.Front S) (hm : K.relay.Turn S m) (hne : K.tid m ≠ t)
    (h : Local K S U t th) : Local K (insert m S) U t th := by
  obtain ⟨done, todo, mid, hh, hc⟩ := h
  refine ⟨done, todo, mid, hh.otherSignal hne, ?_⟩
  cases hc with
  | idle => exact .idle
  | node h ht hc hat => exact .node h ht hc (hat.take hfront hm hc (ht ▸ hne))
  | past ht hn hat => exact .past ht hn hat
  | endChecks h hc hat => exact .endChecks h hc (hat.take hfront hm hc hne)

theorem Local.otherUpdate (hne : K.tid m ≠ t) (h : Local K S U t th) :
    Local K S (insert m U) t th := by
  obtain ⟨done, todo, mid, hh, hc⟩ := h
  exact ⟨done, todo, mid, hh.otherUpdate hne, hc⟩

/-- Once the last node of a thread is through all its nodes are. -/
theorem mem_of_last {unlocks : List (ℕ × Lock)} {last : ℕ} {lock : Lock}
    (hfront : K.relay.Front S) (hc : K.EndCode t unlocks last lock) (hl : last ∈ S)
    (hn : n ∈ K.relay.nodes) (ht : K.tid n = t) : n ∈ S := by
  rcases eq_or_ne n last with rfl | hne
  · exact hl
  · have hlast := Kernel.mem_relay.mpr ⟨lock, hc.lock_mem⟩
    have hlt := hc.le_last n hn ht
    exact hfront.closed last hl n hn
      ((Kernel.step_lt_iff hn hlast (ht.trans hc.tid_last.symm)).mpr (by omega))

/-- **What a step of thread `t` in a loop may be**: nothing the others see,
the update of a node of its own in its turn and not yet made, or the signal
of one in its turn. -/
inductive LocalStep (K : Kernel) (S U : Finset ℕ) (t : ℕ) : Effect → Thread → Prop
  | quiet {th : Thread} (h : Local K S U t th) : LocalStep K S U t .none th
  | update {n : ℕ} {th : Thread} (ht : K.tid n = t) (hturn : K.relay.Turn S n) (hU : n ∉ U)
      (h : Local K S (insert n U) t th) : LocalStep K S U t (.update n) th
  | signal {n : ℕ} {th : Thread} (ht : K.tid n = t) (hturn : K.relay.Turn S n)
      (h : Local K (insert n S) U t th) :
      LocalStep K S U t (.signal n (K.relay.flag n, K.relay.value n)) th

/-- Where the thread is after a step in the loop of its first statement. -/
def Thread.next (th : Thread) (rest : List Stmt) : Option Position → Thread
  | none => ⟨rest, none, th.passed⟩
  | some pos' => ⟨th.stmts, some pos', th.passed⟩

/-- **Every step in a loop keeps the thread's invariant.** -/
theorem Local.step (hfront : K.relay.Front S) (hflags : ∀ f, flags f = K.relay.count S f)
    (h : Local K S U t th) (hst : th.stmts = st :: rest) (hpos : th.loop = some pos) :
    LocalStep K S U t (stepLoop flags (K.loopOf t st) pos).effect
      (th.next rest (stepLoop flags (K.loopOf t st) pos).next) := by
  obtain ⟨done, todo, mid, hh, hc⟩ := h
  cases hc with
  | idle => cases hpos
  | @node n passed rest' _ _ unlocks lock h ht hc hat =>
    cases hpos
    subst h
    obtain ⟨rfl, rfl⟩ := List.cons.inj hst
    have hn : n ∈ K.relay.nodes := Kernel.mem_relay.mpr ⟨lock, hc.lock_mem⟩
    have hbody : K.loopOf t (.visit n) = nodeBody K.addr K.code n := if_pos ht
    have hstep := hat.step hfront hflags hc
    rw [← hbody] at hstep
    generalize stepLoop flags (K.loopOf t (.visit n)) pos = o at hstep
    cases hstep with
    | quiet h => exact .quiet ⟨done, _, mid, hh, .node rfl ht hc h⟩
    | leave hS =>
      refine .quiet ⟨_, rest', none, hh.pass (fun m he _ _ => ?_) (by simp), .idle⟩
      cases he
      exact hS
    | @unlock x pos' hx hturn h =>
      obtain ⟨hxL, hxt, hxn⟩ := (hc.mem_unlocks x).mp hx
      rw [Kernel.lock_signal (l := x.2) hxL]
      refine .signal (hxt.trans ht) hturn ⟨done, _, none, hh.unlock ?_, .node rfl ht hc (h _)⟩
      -- a visit of `x` behind the visit of the later node `n` is not fresh
      intro p q he hf
      cases p with
      | nil =>
        obtain ⟨he, -⟩ := List.cons.inj he
        cases he
        exact Nat.lt_irrefl _ hxn
      | cons a p =>
        obtain ⟨rfl, -⟩ := List.cons.inj he
        have := hf n (by simp) hn ht
        omega
    | update hturn h =>
      exact .update ht hturn (hh.notMem_updated hn ht hturn.fresh)
        ⟨done, _, some n, hh.update hfront hn ht hturn.fresh, .node rfl ht hc h⟩
    | signal hturn h =>
      rw [Kernel.lock_signal hc.lock_mem]
      exact .signal ht hturn ⟨_, rest', none, hh.signal ht hn, .past ht hn h⟩
  | past ht hn hat =>
    cases hpos
    obtain ⟨rfl, rfl⟩ := List.cons.inj hst
    rcases hat.step flags (K.loopOf t (.visit _)) with ho | ⟨pos', ho, h'⟩
    · rw [ho]
      exact .quiet ⟨done, _, none, hh, .idle⟩
    · rw [ho]
      exact .quiet ⟨done, _, none, hh, .past ht hn h'⟩
  | @endChecks last passed rest' _ unlocks lock h hc hat =>
    cases hpos
    subst h
    obtain ⟨rfl, rfl⟩ := List.cons.inj hst
    have hstep := hat.step hfront hflags hc
    change LocalStep K S U t (stepLoop flags (endBody K.addr K.code t) pos).effect
      (Thread.next _ _ (stepLoop flags (endBody K.addr K.code t) pos).next)
    generalize stepLoop flags (endBody K.addr K.code t) pos = o at hstep
    cases hstep with
    | quiet h => exact .quiet ⟨done, _, none, hh, .endChecks rfl hc h⟩
    | leave hS =>
      exact .quiet ⟨_, rest', none, hh.pass (by simp)
        (fun _ n hn hnt => mem_of_last hfront hc hS hn hnt), .idle⟩
    | @unlock x pos' hx hturn h =>
      obtain ⟨hxL, hxt⟩ := (hc.mem_unlocks x).mp hx
      rw [Kernel.lock_signal (l := x.2) hxL]
      refine .signal hxt hturn ⟨done, _, none, hh.unlock ?_, .endChecks rfl hc (h _)⟩
      -- nothing is left to visit
      obtain rfl := Kernel.endChecks_last hh.program
      intro p q he
      cases p with
      | nil => cases he
      | cons a p =>
        obtain ⟨-, he⟩ := List.cons.inj he
        simp at he

/-- A thread that is in no loop has all its statements before it. -/
theorem Local.idle (h : Local K S U t th) (hpos : th.loop = none) :
    ∃ done, History K S U t done th.stmts none := by
  obtain ⟨done, todo, mid, hh, hc⟩ := h
  cases hc with
  | idle => exact ⟨done, hh⟩
  | node => cases hpos
  | past => cases hpos
  | endChecks => cases hpos

/-- **Passing a statement that is no loop for it** keeps the thread's
invariant: such a statement has no node of the thread. -/
theorem Local.skip (h : Local K S U t th) (hpos : th.loop = none) (hst : th.stmts = st :: rest)
    (hnil : K.loopOf t st = []) : Local K S U t ⟨rest, none, passed⟩ := by
  obtain ⟨done, hh⟩ := h.idle hpos
  rw [hst] at hh
  refine ⟨_, rest, none, hh.pass (fun n he hn ht => ?_) (fun he n hn ht => ?_), .idle⟩
  · subst he
    obtain ⟨unlocks, lock, hc⟩ := Kernel.exists_nodeCode hn
    exact absurd ((if_pos ht).symm.trans hnil) hc.ne_nil
  · subst he
    obtain ⟨unlocks, last, lock, hc⟩ := Kernel.exists_endCode hn
    rw [ht] at hc
    exact absurd hnil hc.ne_nil

/-- **Coming into a loop** keeps it. -/
theorem Local.enter (h : Local K S U t th) (hpos : th.loop = none) (hst : th.stmts = st :: rest)
    (hne : K.loopOf t st ≠ []) :
    Local K S U t ⟨st :: rest, some (CLSmith.MessagePassing.enter (K.loopOf t st)), passed⟩ := by
  obtain ⟨done, hh⟩ := h.idle hpos
  rw [hst] at hh
  refine ⟨done, _, none, hh, ?_⟩
  rcases Kernel.loopOf_cases hne with ⟨n, unlocks, lock, rfl, ht, hc, hbody⟩ |
    ⟨unlocks, last, lock, rfl, hc⟩
  · rw [hbody]
    exact .node rfl ht hc .top
  · exact .endChecks rfl hc .top

/-- A thread is in a loop only where its statement is one. -/
theorem Local.loopOf_ne_nil (h : Local K S U t th) (hst : th.stmts = st :: rest)
    (hpos : th.loop = some pos) : K.loopOf t st ≠ [] := by
  obtain ⟨done, todo, mid, hh, hc⟩ := h
  cases hc with
  | idle => cases hpos
  | node h ht hc hat =>
    obtain ⟨rfl, -⟩ := List.cons.inj (h.symm.trans hst)
    rw [Kernel.loopOf, if_pos ht]
    exact hc.ne_nil
  | past ht hn hat =>
    obtain ⟨rfl, -⟩ := List.cons.inj hst
    obtain ⟨unlocks, lock, hc⟩ := Kernel.exists_nodeCode hn
    rw [Kernel.loopOf, if_pos ht]
    exact hc.ne_nil
  | endChecks h hc hat =>
    obtain ⟨rfl, -⟩ := List.cons.inj (h.symm.trans hst)
    exact hc.ne_nil

/-- What a thread is through with is what stands before the statements it
has left, and besides the visit it is leaving. -/
theorem Local.history_of_split (h : Local K S U t th) {pre : List Stmt}
    (hpre : K.stmts t = pre ++ th.stmts) :
    ∃ done todo mid, History K S U t done todo mid ∧
      (done = pre ∨ ∃ n, done = pre ++ [.visit n] ∧ th.stmts = .visit n :: todo) := by
  obtain ⟨done, todo, mid, hh, hc⟩ := h
  have hp := hh.program
  refine ⟨done, todo, mid, hh, ?_⟩
  cases hc with
  | idle => exact .inl (List.append_cancel_right (hp.symm.trans hpre))
  | node => exact .inl (List.append_cancel_right (hp.symm.trans hpre))
  | endChecks => exact .inl (List.append_cancel_right (hp.symm.trans hpre))
  | @past n passed pos ht hn hat =>
    refine .inr ⟨n, ?_, rfl⟩
    have he : done ++ todo = (pre ++ [.visit n]) ++ todo := by
      rw [← hp, hpre]
      simp
    exact List.append_cancel_right he

/-- A thread with nothing left has its whole program behind it. -/
theorem Local.history_of_nil (h : Local K S U t th) (hst : th.stmts = []) :
    ∃ mid, History K S U t (K.stmts t) [] mid := by
  obtain ⟨done, todo, mid, hh, hc⟩ := h
  have htodo : todo = [] := by
    cases hc with
    | idle => exact hst
    | node => exact hst
    | past => cases hst
    | endChecks => exact hst
  subst htodo
  have hp := hh.program
  rw [List.append_nil] at hp
  exact ⟨mid, hp ▸ hh⟩

/-- A thread with nothing left is through with all its nodes. -/
theorem Local.mem_of_nil (h : Local K S U t th) (hst : th.stmts = [])
    (hn : n ∈ K.relay.nodes) (ht : K.tid n = t) : n ∈ S := by
  obtain ⟨mid, hh⟩ := h.history_of_nil hst
  exact hh.ended (by simp [Kernel.stmts]) n hn ht

end Threads

end MessagePassing

end CLSmith
