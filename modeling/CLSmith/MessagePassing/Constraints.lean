import CLSmith.Common.Relay
import CLSmith.MessagePassing.Schedule
/-!
# The constraints of the message nodes

The second half of `Message::CreateOrdering`: walking the ordering, each
node is given the flag values it must see before it may update, and the
one value it signals. Four flags serve as two sets of two; an asynchronous
pair signals both flags of a set, and the set is flipped around it.

`orderLocks_lawful` says what this comes to: along the ordering the locks
are a relay. `code` is what the loop leaves behind besides, the lists of
earlier locks a node and the end of a thread may have to unlock.
-/

namespace CLSmith

namespace MessagePassing

open Common

/-- The four condition flags of a message, `field_vars[0]` to `[3]`. -/
inductive Flag
  | f1 | f2 | f3 | f4
deriving DecidableEq, Inhabited

/-- `Constraint`: a flag and a value of it. -/
abbrev Constraint := Flag × ℕ

/-- What a node waits for and what it signals: constraints, each a flag and a value of
it. -/
structure Lock where
  checks : List Constraint
  signal : Constraint
deriving DecidableEq

section Sets

-- where the flags' `Variable` objects lie: `std::set` orders by it
variable (addr : Flag → ℕ)

/-- `operator<` of `std::pair<Variable *, int>`. -/
def constraintLt (c d : Constraint) : Bool :=
  addr c.1 < addr d.1 || (decide (c.1 = d.1) && decide (c.2 < d.2))

/-- `insert` of `std::set<Constraint>`. -/
def setInsert (c : Constraint) : List Constraint → List Constraint
  | [] => [c]
  | d :: ds =>
    if c = d then d :: ds
    else if constraintLt addr c d then c :: d :: ds
    else d :: setInsert c ds

@[simp] theorem mem_setInsert {c d : Constraint} {ds : List Constraint} :
    d ∈ setInsert addr c ds ↔ d = c ∨ d ∈ ds := by
  induction ds with
  | nil => simp [setInsert]
  | cons e es ih =>
    rw [setInsert]
    split
    · next h =>
      subst h
      simp only [List.mem_cons]
      tauto
    · split
      · simp
      · simp only [List.mem_cons, ih]
        tauto

end Sets

/-- The state of the loop: the flags' values, the flag set in use, and how
many nodes the previous step had. -/
structure FlagState where
  flag : Flag → ℕ := fun _ => 0
  flagSet : Bool := false
  previous : ℕ := 0

namespace FlagState

/-- The flag `SelectConstraint` picks: the first of the two unless the
second set is in use. -/
def pick (s : FlagState) (a b : Flag) : Flag := if s.flagSet then b else a

/-- `SelectConstraint`. -/
def select (s : FlagState) (a b : Flag) : Constraint := (s.pick a b, s.flag (s.pick a b))

/-- The `++` inside a `SelectConstraint`: only the flag picked is raised. -/
def raise (s : FlagState) (a b : Flag) : FlagState :=
  { s with flag := Function.update s.flag (s.pick a b) (s.flag (s.pick a b) + 1) }

/-- Raising a flag leaves the choice of flags as it is. -/
theorem raise_pick {s : FlagState} {a b c d : Flag} : (s.raise a b).pick c d = s.pick c d := rfl

theorem raise_select {s : FlagState} {a b : Flag} :
    (s.raise a b).select a b = (s.pick a b, s.flag (s.pick a b) + 1) := by
  change (s.pick a b, Function.update s.flag (s.pick a b) _ (s.pick a b)) = _
  rw [Function.update_self]

theorem raise_flag_of_ne {s : FlagState} {a b f : Flag} (h : f ≠ s.pick a b) :
    (s.raise a b).flag f = s.flag f := Function.update_of_ne h _ _

/-- The two flags of a set are two. -/
theorem pick_ne {s : FlagState} : s.pick .f2 .f4 ≠ s.pick .f1 .f3 := by
  unfold pick
  split <;> simp

end FlagState

section Steps

variable (addr : Flag → ℕ)

/-- The checks of one node beyond the step's `constraints`, and its signal. -/
def makeLock (constraints : List Constraint) (flipFlagSet : Bool) (s : FlagState)
    (a b : Flag) : Lock × FlagState :=
  let checks := if flipFlagSet then setInsert addr (s.select a b) constraints else constraints
  let s' := s.raise a b
  (⟨checks, s'.select a b⟩, s')

/-- The `constraints` both nodes of a step check. -/
def stepConstraints (s : FlagState) : List Constraint :=
  let constraints := setInsert addr (s.select .f1 .f3) []
  if s.previous = 0 ∨ s.previous = 2 then setInsert addr (s.select .f2 .f4) constraints
  else constraints

/-- The state in which a step picks its flags: the set is flipped where it
was the second one, and around a pair. -/
def flipped (s : FlagState) (e : Entry) : FlagState :=
  { s with flagSet := if s.flagSet || e.partner.isSome then !s.flagSet else s.flagSet }

/-- **One step of the ordering**: the locks of its nodes. Both nodes of an
asynchronous pair check what the step before has left, and neither checks the flag of
the other. -/
def stepLocks (s : FlagState) (e : Entry) : List (ℕ × Lock) × FlagState :=
  let constraints := stepConstraints addr s
  let flipFlagSet := s.flagSet || e.partner.isSome
  let s := flipped s e
  let (lock, s) := makeLock addr constraints flipFlagSet s .f1 .f3
  match e.partner with
  | none => ([(e.node, lock)], { s with previous := 1 })
  | some partner =>
    let (lock', s) := makeLock addr constraints flipFlagSet s .f2 .f4
    ([(e.node, lock), (partner, lock')], { s with previous := 2 })

/-- The locks of the ordering, step by step. -/
def orderLocks : FlagState → List Entry → List (List (ℕ × Lock))
  | _, [] => []
  | s, e :: es => (stepLocks addr s e).1 :: orderLocks (stepLocks addr s e).2 es

/-- The leg of the relay a lock stands for. -/
def legOf (x : ℕ × Lock) : Leg ℕ Flag := ⟨x.1, x.2.signal.1, x.2.checks⟩

end Steps

/-! ## One step -/

section StepSpec

variable {addr : Flag → ℕ} {s : FlagState} {e : Entry} {x y : ℕ × Lock} {c : Constraint}
  {f : Flag}

@[simp] theorem mem_stepConstraints : c ∈ stepConstraints addr s ↔
    c = s.select .f1 .f3 ∨ (s.previous = 0 ∨ s.previous = 2) ∧ c = s.select .f2 .f4 := by
  unfold stepConstraints
  simp only
  split
  · next h =>
    simp only [mem_setInsert, List.not_mem_nil, or_false, h, true_and]
    tauto
  · next h => simp [h]

theorem stepLocks_ids : (stepLocks addr s e).1.map Prod.fst = e.ids := by
  obtain ⟨n, _ | p⟩ := e <;> rfl

theorem stepConstraints_value (hc : c ∈ stepConstraints addr s) : c.2 = s.flag c.1 := by
  rcases mem_stepConstraints.mp hc with rfl | ⟨-, rfl⟩
  · rfl
  · rfl

/-- What a lock of the step is to have: it signals one more than its flag
has, checks that flag and others at the values they have, and makes all
the step's checks. -/
structure LockSpec (addr : Flag → ℕ) (s : FlagState) (f : Flag) (l : Lock) : Prop where
  signal : l.signal = (f, s.flag f + 1)
  own : (f, s.flag f) ∈ l.checks
  value : ∀ c ∈ l.checks, c.2 = s.flag c.1
  constraints : ∀ c ∈ stepConstraints addr s, c ∈ l.checks
  flags : ∀ c ∈ l.checks, c.1 = f ∨ ∃ d ∈ stepConstraints addr s, d.1 = c.1

/-- **`makeLock`**: started from a state that still has the step's value
of the flag picked, it gives a lock of the step. Without a flip the step's
checks must hold the flag already. -/
theorem makeLock_spec {s' : FlagState} {flipFlagSet : Bool} {a b : Flag}
    (hflag : s'.flag (s'.pick a b) = s.flag (s'.pick a b))
    (hown : flipFlagSet = false → s'.select a b ∈ stepConstraints addr s) :
    LockSpec addr s (s'.pick a b)
      (makeLock addr (stepConstraints addr s) flipFlagSet s' a b).1 := by
  have hsel : s'.select a b = (s'.pick a b, s.flag (s'.pick a b)) := by
    rw [← hflag, FlagState.select]
  have hsig : (makeLock addr (stepConstraints addr s) flipFlagSet s' a b).1.signal =
      (s'.pick a b, s.flag (s'.pick a b) + 1) := by
    rw [← hflag]
    exact FlagState.raise_select
  cases flipFlagSet with
  | false =>
    have hmem := hown rfl
    refine ⟨hsig, hsel ▸ hmem, fun c hc => stepConstraints_value hc, fun c hc => hc,
      fun c hc => .inr ⟨c, hc, rfl⟩⟩
  | true =>
    have hchecks : (makeLock addr (stepConstraints addr s) true s' a b).1.checks =
        setInsert addr (s'.pick a b, s.flag (s'.pick a b)) (stepConstraints addr s) := by
      rw [← hsel]
      rfl
    refine ⟨hsig, by simp [hchecks], fun c hc => ?_, fun c hc => ?_, fun c hc => ?_⟩
    · rw [hchecks, mem_setInsert] at hc
      rcases hc with rfl | hc
      · rfl
      · exact stepConstraints_value hc
    · rw [hchecks, mem_setInsert]
      exact .inr hc
    · rw [hchecks, mem_setInsert] at hc
      rcases hc with rfl | hc
      · exact .inl rfl
      · exact .inr ⟨c, hc, rfl⟩

/-- **The locks of a step**: the node's with the first flag of the set, the
partner's with the second. -/
theorem mem_stepLocks (hx : x ∈ (stepLocks addr s e).1) :
    x.1 = e.node ∧ LockSpec addr s ((flipped s e).pick .f1 .f3) x.2 ∨
    e.partner = some x.1 ∧ LockSpec addr s ((flipped s e).pick .f2 .f4) x.2 := by
  have hown : (s.flagSet || e.partner.isSome) = false →
      (flipped s e).select .f1 .f3 ∈ stepConstraints addr s := by
    intro hflip
    rw [mem_stepConstraints]
    left
    simp [flipped, hflip, FlagState.select, FlagState.pick]
  have hnode : LockSpec addr s ((flipped s e).pick .f1 .f3)
      (makeLock addr (stepConstraints addr s) (s.flagSet || e.partner.isSome)
        (flipped s e) .f1 .f3).1 := makeLock_spec rfl hown
  obtain ⟨n, _ | p⟩ := e
  · simp only [stepLocks, List.mem_singleton] at hx
    subst hx
    exact .inl ⟨rfl, hnode⟩
  · simp only [stepLocks, List.mem_cons, List.not_mem_nil, or_false] at hx
    rcases hx with rfl | rfl
    · exact .inl ⟨rfl, hnode⟩
    · -- raising the node's flag has left the partner's as it was
      have hflag : ((flipped s ⟨n, some p⟩).raise .f1 .f3).flag
          (((flipped s ⟨n, some p⟩).raise .f1 .f3).pick .f2 .f4) =
          s.flag (((flipped s ⟨n, some p⟩).raise .f1 .f3).pick .f2 .f4) :=
        FlagState.raise_flag_of_ne FlagState.pick_ne
      exact .inr ⟨rfl, makeLock_spec hflag (by simp)⟩

/-- Neither node of a pair checks the flag the other signals. -/
theorem stepLocks_flag (hx : x ∈ (stepLocks addr s e).1) (hy : y ∈ (stepLocks addr s e).1)
    (hne : y.1 ≠ x.1) (hc : c ∈ x.2.checks) : y.2.signal.1 ≠ c.1 := by
  -- two nodes are of a pair, so the flags signalled are of the set not in use before
  have key : ∀ p, e.partner = some p → ∀ d ∈ stepConstraints addr s,
      d.1 ≠ (flipped s e).pick .f1 .f3 ∧ d.1 ≠ (flipped s e).pick .f2 .f4 := by
    intro p hp d hd
    rcases mem_stepConstraints.mp hd with rfl | ⟨-, rfl⟩ <;>
      cases hfs : s.flagSet <;>
        simp [flipped, FlagState.select, FlagState.pick, hp, hfs]
  rcases mem_stepLocks hx with ⟨hxn, hxs⟩ | ⟨hxn, hxs⟩ <;>
    rcases mem_stepLocks hy with ⟨hyn, hys⟩ | ⟨hyn, hys⟩
  · exact absurd (hyn.trans hxn.symm) hne
  · rw [hys.signal]
    rcases hxs.flags c hc with h | ⟨d, hd, h⟩
    · rw [h]
      exact FlagState.pick_ne
    · rw [← h]
      exact (key _ hyn d hd).2.symm
  · rw [hys.signal]
    rcases hxs.flags c hc with h | ⟨d, hd, h⟩
    · rw [h]
      exact FlagState.pick_ne.symm
    · rw [← h]
      exact (key _ hxn d hd).1.symm
  · exact absurd (Option.some.inj (hyn.symm.trans hxn)) hne

/-- A flag is raised by one where it is the flag picked. -/
theorem raise_flag {a b : Flag} :
    (s.raise a b).flag f = s.flag f + if s.pick a b = f then 1 else 0 := by
  split
  · next he =>
    subst he
    exact Function.update_self _ _ _
  · next he => exact FlagState.raise_flag_of_ne (Ne.symm he)

/-- The flags after a step: those its nodes signalled are one up. -/
theorem stepLocks_count : (stepLocks addr s e).2.flag f =
    s.flag f + (stepLocks addr s e).1.countP fun x => x.2.signal.1 = f := by
  have hsig : ∀ (C : List Constraint) (b : Bool) (s' : FlagState) (g h : Flag),
      (makeLock addr C b s' g h).1.signal.1 = s'.pick g h := fun _ _ _ _ _ => rfl
  obtain ⟨n, _ | p⟩ := e
  · simp only [stepLocks, List.countP_singleton, hsig, decide_eq_true_eq]
    exact raise_flag (s := flipped s ⟨n, none⟩)
  · simp only [stepLocks, List.countP_cons, List.countP_nil, hsig, decide_eq_true_eq]
    refine (raise_flag (s := (flipped s ⟨n, some p⟩).raise .f1 .f3)).trans ?_
    have hsnd : (makeLock addr (stepConstraints addr s) (s.flagSet || (some p).isSome)
        (flipped s ⟨n, some p⟩) .f1 .f3).2 = (flipped s ⟨n, some p⟩).raise .f1 .f3 := rfl
    have hflag : (flipped s ⟨n, some p⟩).flag f = s.flag f := rfl
    rw [raise_flag, hsnd, hflag, FlagState.raise_pick]
    omega

/-- What a step signals is what the next step checks for. -/
theorem stepLocks_signal (hx : x ∈ (stepLocks addr s e).1) :
    x.2.signal = (stepLocks addr s e).2.select .f1 .f3 ∨
      (stepLocks addr s e).2.previous = 2 ∧
        x.2.signal = (stepLocks addr s e).2.select .f2 .f4 := by
  obtain ⟨n, _ | p⟩ := e
  · simp only [stepLocks, List.mem_singleton] at hx
    subst hx
    exact .inl rfl
  · simp only [stepLocks, List.mem_cons, List.not_mem_nil, or_false] at hx
    rcases hx with rfl | rfl
    · -- the partner's flag is another one, so the node's keeps the value signalled
      left
      have hkeep : (((flipped s ⟨n, some p⟩).raise .f1 .f3).raise .f2 .f4).flag
          ((flipped s ⟨n, some p⟩).pick .f1 .f3) =
          ((flipped s ⟨n, some p⟩).raise .f1 .f3).flag ((flipped s ⟨n, some p⟩).pick .f1 .f3) :=
        FlagState.raise_flag_of_ne FlagState.pick_ne.symm
      exact Prod.ext rfl hkeep.symm
    · exact .inr ⟨rfl, rfl⟩

end StepSpec

/-! ## The whole ordering -/

section Order

variable {addr : Flag → ℕ} {s : FlagState} {A B : List (List (ℕ × Lock))}
  {st : List (ℕ × Lock)} {order : List Entry}

/-- **The loop invariant**: each flag has been raised as often as the locks
so far say, and the next step checks for what the last one signalled. -/
structure FlagInv (A : List (List (ℕ × Lock))) (s : FlagState) : Prop where
  count : ∀ f, s.flag f = Leg.raised (A.map (·.map legOf)) f
  signals : ∀ st ∈ A.getLast?, ∀ x ∈ st,
    x.2.signal = s.select .f1 .f3 ∨ s.previous = 2 ∧ x.2.signal = s.select .f2 .f4

theorem flagInv_start : FlagInv [] {} := ⟨fun _ => rfl, by simp⟩

theorem FlagInv.step (h : FlagInv A s) (e : Entry) :
    FlagInv (A ++ [(stepLocks addr s e).1]) (stepLocks addr s e).2 := by
  refine ⟨fun f => ?_, fun st hst x hx => ?_⟩
  · rw [stepLocks_count, h.count f]
    simp only [Leg.raised, List.map_append, List.map_cons, List.map_nil, List.flatten_append,
      List.countP_append, List.flatten_cons, List.flatten_nil, List.append_nil, List.countP_map]
    rfl
  · obtain rfl : (stepLocks addr s e).1 = st := by simpa using hst
    exact stepLocks_signal hx

/-- Every step of the locks was made in a state of the invariant. -/
theorem orderLocks_split {A₀ : List (List (ℕ × Lock))} (h : FlagInv A₀ s)
    (he : orderLocks addr s order = A ++ st :: B) :
    ∃ s' e, e ∈ order ∧ FlagInv (A₀ ++ A) s' ∧ st = (stepLocks addr s' e).1 := by
  induction order generalizing s A₀ A with
  | nil => simp [orderLocks] at he
  | cons e es ih =>
    cases A with
    | nil =>
      rw [orderLocks, List.nil_append] at he
      exact ⟨s, e, by simp, by simpa using h, (List.cons.inj he).1.symm⟩
    | cons a A =>
      rw [orderLocks, List.cons_append] at he
      obtain ⟨rfl, htail⟩ := List.cons.inj he
      obtain ⟨s', e', he', hi, hst⟩ := ih (h.step e) htail
      exact ⟨s', e', List.mem_cons_of_mem _ he', by simpa using hi, hst⟩

/-- Each step has the nodes of its entry. -/
theorem orderLocks_ids :
    (orderLocks addr s order).flatten.map Prod.fst = order.flatMap Entry.ids := by
  induction order generalizing s with
  | nil => rfl
  | cons e es ih => simp [orderLocks, ih, stepLocks_ids]

/-- An ordering names no node twice. -/
theorem Ordered.nodup {nodes : List ℕ} (h : Ordered nodes order) :
    (order.flatMap Entry.ids).Nodup :=
  h.sequenced.imp fun hlt he => by
    subst he
    exact Nat.lt_irrefl _ (hlt rfl)

/-- The legs of the locks. -/
def legs (E : List (List (ℕ × Lock))) : List (List (Leg ℕ Flag)) := E.map (·.map legOf)

theorem legs_split {E : List (List (ℕ × Lock))} {A' : List (List (Leg ℕ Flag))}
    {s' : List (Leg ℕ Flag)} {B' : List (List (Leg ℕ Flag))} (h : legs E = A' ++ s' :: B') :
    ∃ A st B, E = A ++ st :: B ∧ A' = legs A ∧ s' = st.map legOf ∧ B' = legs B := by
  obtain ⟨A, R, rfl, rfl, hR⟩ := List.map_eq_append_iff.mp h
  obtain ⟨st, B, rfl, rfl, rfl⟩ := List.map_eq_cons_iff.mp hR
  exact ⟨A, st, B, rfl, rfl, rfl, rfl⟩

/-- **The locks of an ordering are a relay.** -/
theorem orderLocks_lawful (h : (order.flatMap Entry.ids).Nodup) :
    Leg.Lawful (legs (orderLocks addr {} order)) := by
  have hsplit : ∀ {A st B}, orderLocks addr {} order = A ++ st :: B →
      ∃ s' e, e ∈ order ∧ FlagInv A s' ∧ st = (stepLocks addr s' e).1 :=
    fun he => by simpa using orderLocks_split flagInv_start he
  -- every lock was made from the flags as the steps before it have left them
  have hspec : ∀ {A st B}, orderLocks addr {} order = A ++ st :: B → ∀ x ∈ st,
      ∃ s' : FlagState, FlagInv A s' ∧ LockSpec addr s' x.2.signal.1 x.2 := by
    intro A st B he x hx
    obtain ⟨s', e, -, hi, rfl⟩ := hsplit he
    rcases mem_stepLocks hx with ⟨-, hs⟩ | ⟨-, hs⟩ <;>
      exact ⟨s', hi, by rw [hs.signal]; exact hs⟩
  refine ⟨?_, ?_, ?_, ?_, ?_, ?_⟩
  · have : (legs (orderLocks addr {} order)).flatten.map Leg.name =
        (orderLocks addr {} order).flatten.map Prod.fst := by
      rw [legs, ← List.map_flatten, List.map_map]
      rfl
    rw [this, orderLocks_ids]
    exact h
  · intro s hs
    obtain ⟨st, hst, rfl⟩ := List.mem_map.mp hs
    obtain ⟨A, B, he⟩ := List.append_of_mem hst
    obtain ⟨s', e, -, -, rfl⟩ := hsplit he
    have hids : (stepLocks addr s' e).1.map Prod.fst = e.ids := stepLocks_ids
    intro hnil
    rw [List.map_eq_nil_iff] at hnil
    rw [hnil] at hids
    cases hids
  · intro A' s' B' hE x' hx' c hc
    obtain ⟨A, st, B, he, rfl, rfl, rfl⟩ := legs_split hE
    obtain ⟨x, hx, rfl⟩ := List.mem_map.mp hx'
    obtain ⟨s, hi, hs⟩ := hspec he x hx
    rw [hs.value c hc, hi.count]
    rfl
  · intro s' hs' x' hx' y' hy' hne c hc
    obtain ⟨st, hst, rfl⟩ := List.mem_map.mp hs'
    obtain ⟨x, hx, rfl⟩ := List.mem_map.mp hx'
    obtain ⟨y, hy, rfl⟩ := List.mem_map.mp hy'
    obtain ⟨A, B, he⟩ := List.append_of_mem hst
    obtain ⟨s, e, -, -, rfl⟩ := hsplit he
    exact stepLocks_flag hx hy hne hc
  · intro A' s' B' hE x' hx'
    obtain ⟨A, st, B, he, rfl, rfl, rfl⟩ := legs_split hE
    obtain ⟨x, hx, rfl⟩ := List.mem_map.mp hx'
    obtain ⟨s, hi, hs⟩ := hspec he x hx
    have := hs.own
    rwa [hi.count] at this
  · intro A' s₁ s₂ B' hE p' hp' x' hx'
    obtain ⟨A, st, R, he, rfl, rfl, hR⟩ := legs_split hE
    obtain ⟨A₂, st', B, rfl, hnil, rfl, rfl⟩ := @legs_split R [] _ _ hR.symm
    obtain rfl : A₂ = [] := by simpa [legs] using hnil.symm
    obtain ⟨p, hp, rfl⟩ := List.mem_map.mp hp'
    obtain ⟨x, hx, rfl⟩ := List.mem_map.mp hx'
    obtain ⟨s, hi, hs⟩ := hspec he p hp
    obtain ⟨s', hi', hs'⟩ := hspec (A := A ++ [st]) (B := B) (by simpa using he) x hx
    -- what a step signals, the next one checks: its flag or the one put aside for it
    have hsig : p.2.signal = (p.2.signal.1, Leg.raised (legs A) p.2.signal.1 + 1) := by
      conv_lhs => rw [hs.signal, hi.count]
      rfl
    change (p.2.signal.1, _) ∈ x.2.checks
    rw [legOf, ← hsig]
    refine hs'.constraints _ (mem_stepConstraints.mpr ?_)
    rcases hi'.signals st (by simp) p hp with h | ⟨hprev, h⟩
    · exact .inl h
    · exact .inr ⟨.inr hprev, h⟩

end Order

end MessagePassing

end CLSmith
