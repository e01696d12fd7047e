import CLSmith.ArrayLoop.Generate
import Mathlib.Tactic.Positivity
import Mathlib.Tactic.Ring
/-!
# Indices stay in bounds

What the generator's draws can make of a control and of an index, the values
an induction variable takes, and from both that every run of a nest ends with
every index within its dimension.
-/

namespace CLSmith

namespace ArrayLoop

open Common IntTy Expr

/-! ## Controls -/

namespace Control

variable {c : Control} {signed : Bool} {x : ℤ} {bound : ℕ} {t t' : Tape}

/-- **What a control can be**: rising to its limit, with the last value
below it as the bound, or falling from its bound. -/
structure Sound (c : Control) (signed : Bool) : Prop where
  incr_pos : 0 < c.incr
  incr_lt : c.incr < 2 ^ 31
  limit_lt : c.limit < 2 ^ 31
  shape : (c.testOp = .cmpLe ∧ c.incrOp = .addAssign ∧ c.init ≤ c.limit ∧
      c.bound = (c.limit - c.init) / c.incr * c.incr + c.init) ∨
    (c.testOp = .cmpGe ∧ c.incrOp = .subAssign ∧ signed = true ∧ c.bound = c.init)

theorem pureRndUpto_le {n v : ℕ} (h : pureRndUpto n t = some (v, t')) : v ≤ n := by
  unfold pureRndUpto at h
  split at h
  · cases h
    exact Nat.zero_le n
  · exact (rndUpto_lt (by omega) h).le

theorem halfOr_eq {a v : ℕ} {b : Gen ℕ} (h : halfOr a b t = some (v, t')) :
    v = a ∨ ∃ t₁ t₂, b t₁ = some (v, t₂) := by
  obtain ⟨coin, t₁, -, h⟩ := Gen.bind_eq_some.mp h
  cases coin with
  | true =>
    cases h
    exact .inl rfl
  | false => exact .inr ⟨t₁, t', h⟩

theorem makeIncr_mem {v : ℕ} (h : makeIncr bound t = some (v, t')) : 0 < v ∧ v ≤ bound + 1 := by
  obtain ⟨incr, t₁, hincr, h⟩ := Gen.bind_eq_some.mp h
  cases h
  have hle : incr = 1 ∨ incr ≤ bound / 4 := by
    rcases halfOr_eq hincr with h | ⟨_, _, h⟩
    · exact .inl h
    · exact .inr (pureRndUpto_le h)
  have := Nat.div_le_self bound 4
  split <;> omega

/-- The draws make a sound control. -/
theorem makeRandomArrayControl_sound (hb : bound + 1 < 2 ^ 31)
    (h : makeRandomArrayControl bound signed t = some (c, t')) : c.Sound signed := by
  obtain ⟨falling, t₁, hfall, h⟩ := Gen.bind_eq_some.mp h
  cases falling with
  | true =>
    have hs : signed = true := by
      cases signed with
      | true => rfl
      | false => cases hfall
    obtain ⟨init, t₂, -, h⟩ := Gen.bind_eq_some.mp h
    obtain ⟨limit, t₃, hlimit, h⟩ := Gen.bind_eq_some.mp h
    obtain ⟨incr, t₄, hincr, h⟩ := Gen.bind_eq_some.mp h
    cases h
    have hl : limit ≤ bound := by
      rcases halfOr_eq hlimit with h | ⟨_, _, h⟩
      · omega
      · exact (pureRndUpto_le h).trans (Nat.div_le_self _ _)
    have hi := makeIncr_mem hincr
    exact ⟨hi.1, hi.2.trans_lt hb, hl.trans_lt (by omega), .inr ⟨rfl, rfl, hs, rfl⟩⟩
  | false =>
    obtain ⟨init, t₂, hinit, h⟩ := Gen.bind_eq_some.mp h
    obtain ⟨incr, t₃, hincr, h⟩ := Gen.bind_eq_some.mp h
    cases h
    have hi : init ≤ bound := by
      rcases halfOr_eq hinit with h | ⟨_, _, h⟩
      · omega
      · exact (pureRndUpto_le h).trans (Nat.div_le_self _ _)
    have hn := makeIncr_mem hincr
    exact ⟨hn.1, hn.2.trans_lt hb, Nat.lt_of_succ_lt hb, .inl ⟨rfl, rfl, hi, rfl⟩⟩

/-- The test. -/
def Holds (c : Control) (x : ℤ) : Prop :=
  match c.testOp with
  | .cmpLe => x ≤ c.limit
  | .cmpGe => c.limit ≤ x

/-- The value after the increment. -/
def succ (c : Control) (x : ℤ) : ℤ :=
  match c.incrOp with
  | .addAssign => x + c.incr
  | .subAssign => x - c.incr

/-- **The values at the test**: those of the rounds and the one after. Counting up
these are the start and so many increments, counting down whatever lies from minus one
increment up to the bound. -/
def Reaches (c : Control) (x : ℤ) : Prop :=
  match c.testOp with
  | .cmpLe => ∃ k : ℕ, x = c.init + k * c.incr ∧ x ≤ c.bound + c.incr
  | .cmpGe => -c.incr ≤ x ∧ x ≤ c.bound

/-- A bound of the rounds to come. -/
def rounds (c : Control) (x : ℤ) : ℕ :=
  match c.testOp with
  | .cmpLe => (c.limit + 1 - x).toNat
  | .cmpGe => (x + 1 - c.limit).toNat

theorem Sound.reaches_init (h : c.Sound signed) : c.Reaches c.init := by
  obtain ⟨hpos, -, -, ⟨htest, -, -, hbound⟩ | ⟨htest, -, -, hbound⟩⟩ := h
  · simp only [Reaches, htest]
    refine ⟨0, by simp, ?_⟩
    rw [hbound]
    push_cast
    have : (0 : ℤ) ≤ ((c.limit - c.init : ℕ) : ℤ) / c.incr * c.incr := by positivity
    omega
  · simp only [Reaches, htest]
    omega

/-- **In the body** the value is between zero and the bound. -/
theorem Sound.mem_body (h : c.Sound signed) (hx : c.Reaches x) (hholds : c.Holds x) :
    0 ≤ x ∧ x ≤ c.bound := by
  obtain ⟨hpos, -, -, ⟨htest, -, hinit, hbound⟩ | ⟨htest, -, -, hbound⟩⟩ := h
  · simp only [Reaches, Holds, htest] at hx hholds
    obtain ⟨k, hk, -⟩ := hx
    have hkle : c.init + k * c.incr ≤ c.limit := by
      have : ((c.init + k * c.incr : ℕ) : ℤ) ≤ (c.limit : ℕ) := by push_cast; omega
      exact_mod_cast this
    -- the last value below the limit is as many whole increments up
    have hdiv : k ≤ (c.limit - c.init) / c.incr := (Nat.le_div_iff_mul_le hpos).mpr (by omega)
    have hmul : k * c.incr ≤ c.bound - c.init := by
      rw [hbound, Nat.add_sub_cancel]
      exact Nat.mul_le_mul_right _ hdiv
    have hge : c.init ≤ c.bound := by rw [hbound]; exact Nat.le_add_left _ _
    rw [hk]
    constructor
    · positivity
    · have : c.init + k * c.incr ≤ c.bound := by omega
      exact_mod_cast this
  · simp only [Reaches, Holds, htest] at hx hholds
    omega

theorem Sound.reaches_succ (h : c.Sound signed) (hx : c.Reaches x) (hholds : c.Holds x) :
    c.Reaches (c.succ x) ∧ c.rounds (c.succ x) < c.rounds x := by
  have hbody := h.mem_body hx hholds
  obtain ⟨hpos, -, -, ⟨htest, hop, hinit, hbound⟩ | ⟨htest, hop, -, hbound⟩⟩ := h
  · simp only [Reaches, Holds, succ, rounds, htest, hop] at hx hholds ⊢
    obtain ⟨k, hk, -⟩ := hx
    refine ⟨⟨k + 1, ?_, by omega⟩, by omega⟩
    push_cast
    rw [hk]
    ring
  · simp only [Reaches, Holds, succ, rounds, htest, hop] at hx hholds ⊢
    omega

/-- A variable wide enough for the bound and a step holds every value. -/
theorem Sound.inRange {ty : IntTy} (h : c.Sound ty.signed) (hw : ty.InRange (c.bound + c.incr))
    (hx : c.Reaches x) : ty.InRange x := by
  obtain ⟨-, hmax⟩ := hw
  obtain ⟨hpos, -, -, ⟨htest, -, -, -⟩ | ⟨htest, -, hs, -⟩⟩ := h
  · simp only [Reaches, htest] at hx
    obtain ⟨k, hk, hle⟩ := hx
    have h0 : 0 ≤ x := by rw [hk]; positivity
    have := ty.minVal_nonpos
    exact ⟨by omega, by omega⟩
  · simp only [Reaches, htest] at hx
    have := ty.minVal_signed hs
    exact ⟨by omega, by omega⟩

end Control

/-- A nonnegative `int` is a value of every promoted type. -/
theorem promote_inRange_nat (ty : IntTy) {n : ℕ} (h : n < 2 ^ 31) : ty.promote.InRange n := by
  have hmax : (2 : ℤ) ^ 31 - 1 ≤ ty.promote.maxVal := by
    obtain ⟨s, w⟩ := ty
    cases s <;> cases w <;> decide
  have := ty.promote.minVal_nonpos
  exact ⟨by omega, by omega⟩

theorem returns_int {n : ℕ} (h : n < 2 ^ 31) : (Expr.lit .int n).Returns n :=
  .lit (promote_inRange_nat .int h)

variable {V M : Type} {S : Vars V M}

/-! ## Conditions and increments -/

section Steps

variable {l : Loop V} {m : M} (hs : l.control.Sound (S.ty l.iv).signed)
  (hw : (S.ty l.iv).InRange (l.control.bound + l.control.incr))
include hs hw

theorem test_decides (hx : l.control.Reaches (S.get m l.iv)) :
    (l.test S m).Decides (l.control.Holds (S.get m l.iv)) := by
  have hin := hs.inRange hw hx
  have hlim := promote_inRange_nat (S.ty l.iv) hs.limit_lt
  unfold Loop.test Control.Holds
  cases l.control.testOp with
  | cmpLe =>
    exact Decides.compare (.lit hin) (returns_int hs.limit_lt) common_int hin.promote hlim
  | cmpGe =>
    exact Decides.compare (.lit hin) (returns_int hs.limit_lt) common_int hin.promote hlim

theorem next_returns (hx : l.control.Reaches (S.get m l.iv))
    (hholds : l.control.Holds (S.get m l.iv)) :
    (l.next S m).Returns (l.control.succ (S.get m l.iv)) := by
  have hin := hs.inRange hw hx
  have hnext := hs.inRange hw (hs.reaches_succ hx hholds).1
  have hincr := promote_inRange_nat (S.ty l.iv) hs.incr_lt
  refine Returns.cast ?_ hnext
  unfold Control.succ at hnext ⊢
  cases hop : l.control.incrOp with
  | addAssign =>
    rw [hop] at hnext
    exact Returns.arith_common (.lit hin) (returns_int hs.incr_lt) common_int hin.promote hincr
      hnext.promote
  | subAssign =>
    rw [hop] at hnext
    exact Returns.arith_common (.lit hin) (returns_int hs.incr_lt) common_int hin.promote hincr
      hnext.promote

end Steps

/-! ## Elements -/

/-- **The values of the induction variables are within their bounds.** This is all an
index needs to know of the memory it is evaluated in. -/
def InBounds (S : Vars V M) (c : Bounds V) (m : M) : Prop :=
  ∀ q ∈ c, 0 ≤ S.get m q.1 ∧ S.get m q.1 ≤ q.2

/-- What an index is made of: a variable whose bound leaves room for the
offset. -/
def Index.Fits (c : Bounds V) (i : Index V) : Prop :=
  ∃ bound, (i.iv, bound) ∈ c ∧ bound + i.offset < i.dim.len

theorem insertIv_perm (q : V × ℕ) (c : Bounds V) : (insertIv S q c).Perm (q :: c) := by
  induction c with
  | nil => exact .refl _
  | cons r c ih =>
    unfold insertIv
    split
    · exact .refl _
    · exact (ih.cons r).trans (.swap q r c)

theorem mem_okIvs {o : IndexOptions} {c : Bounds V} {n : ℕ} {q : V × ℕ} (h : q ∈ okIvs S o c n) :
    q ∈ c ∧ q.2 < n := by
  have hfold : ∀ (l acc : Bounds V), q ∈ l.foldl (fun ivs q => insertIv S q ivs) acc →
      q ∈ l ∨ q ∈ acc := by
    intro l
    induction l with
    | nil => exact fun acc h => .inr h
    | cons r l ih =>
      intro acc h
      rcases ih _ h with h | h
      · exact .inl (List.mem_cons_of_mem _ h)
      · rcases List.mem_cons.mp ((insertIv_perm r acc).mem_iff.mp h) with rfl | h
        · exact .inl List.mem_cons_self
        · exact .inr h
  rcases hfold _ _ h with h | h
  · rw [List.mem_filter] at h
    simp only [Bool.and_eq_true, decide_eq_true_eq] at h
    exact ⟨h.1, h.2.1.1.2⟩
  · exact absurd h List.not_mem_nil

theorem chooseOkVar_mem {α : Type} {l : List α} {a : α} {t t' : Tape}
    (h : chooseOkVar l t = some (some a, t')) : a ∈ l := by
  match l with
  | [] => cases h
  | [v] =>
    cases h
    exact List.mem_cons_self
  | v :: w :: vs =>
    obtain ⟨index, t₁, -, h⟩ := Gen.bind_eq_some.mp h
    rw [Gen.pure_apply, Option.some.injEq, Prod.mk.injEq] at h
    exact List.mem_of_getElem? h.1

/-- **An itemized element fits.** -/
theorem itemizeDims_fits {o : IndexOptions} {c : Bounds V} {ds : List Dim} {e : List (Index V)}
    {t t' : Tape} (h : itemizeDims S o c ds t = some (some e, t')) : ∀ i ∈ e, i.Fits c := by
  induction ds generalizing e t t' with
  | nil =>
    cases h
    exact fun i hi => absurd hi List.not_mem_nil
  | cons d ds ih =>
    obtain ⟨ov, t₁, hv, h⟩ := Gen.bind_eq_some.mp h
    cases ov with
    | none => cases h
    | some q =>
      obtain ⟨hmem, hlt⟩ := mem_okIvs (chooseOkVar_mem hv)
      obtain ⟨offset, t₂, hoff, h⟩ := Gen.bind_eq_some.mp h
      obtain ⟨orest, t₃, hrest, h⟩ := Gen.bind_eq_some.mp h
      have hlt' : q.2 + offset < d.len := by
        split at hoff
        · have := rndUpto_lt (by omega) hoff
          omega
        · cases hoff
          omega
      cases orest with
      | none => cases h
      | some rest =>
        cases h
        intro i hi
        rcases List.mem_cons.mp hi with rfl | hi
        · exact ⟨q.2, hmem, hlt'⟩
        · exact ih hrest i hi

/-- **An index in bounds**: it evaluates, within its dimension. That it evaluates is a
statement of its own, as the remainder in it is undefined for a divisor of zero. -/
def Index.Within (S : Vars V M) (m : M) (i : Index V) : Prop :=
  ∃ v, (i.expr S m).Returns v ∧ 0 ≤ v ∧ v < i.dim.len

theorem Index.Fits.within {c : Bounds V} {i : Index V} {m : M} (h : i.Fits c)
    (hw : ∀ q ∈ c, (S.ty q.1).InRange q.2) (hm : InBounds S c m) : i.Within S m := by
  obtain ⟨bound, hmem, hlt⟩ := h
  have hle : 0 ≤ S.get m i.iv ∧ S.get m i.iv ≤ bound := hm _ hmem
  have hmax : (S.ty i.iv).InRange bound := hw _ hmem
  obtain ⟨h0, hle⟩ := hle
  have hlen := i.dim.lt
  have hin : (S.ty i.iv).InRange (S.get m i.iv) := by
    have := (S.ty i.iv).minVal_nonpos
    exact ⟨by omega, hle.trans hmax.2⟩
  unfold Index.Within Index.expr
  split
  · exact ⟨_, .lit hin, h0, by omega⟩
  · have hsum : (S.ty i.iv).promote.InRange (S.get m i.iv + i.offset) := by
      have hn : ((S.get m i.iv).toNat + i.offset : ℕ) < 2 ^ 31 := by omega
      have := promote_inRange_nat (S.ty i.iv) hn
      rwa [Nat.cast_add, Int.toNat_of_nonneg h0] at this
    have hoff : i.offset < 2 ^ 31 := by omega
    exact ⟨_, Returns.arith_common (.lit hin) (returns_int hoff) common_int hin.promote
      (promote_inRange_nat _ hoff) hsum, by omega, by omega⟩

/-! ## Nests -/

namespace Nest

variable {L E : Type}

/-- What holds of each statement, element and loop of a nest, in the bounds
around it. -/
def Each [DecidableEq V] (run : Bounds V → (M → M × Outcome) → Prop)
    (use : Bounds V → List (Index V) → Prop) (loop : Bounds V → Loop V → Prop) :
    Nest M (Loop V) (List (Index V)) → Bounds V → Prop
  | .nil, _ => True
  | .other r rest, c => run c r ∧ rest.Each run use loop c
  | .use e rest, c => use c e ∧ rest.Each run use loop c
  | .ifElse _ t e rest, c =>
    t.Each run use loop c ∧ e.Each run use loop c ∧ rest.Each run use loop c
  | .loop l body rest, c =>
    loop c l ∧ body.Each run use loop (c.insert l.iv l.control.bound) ∧ rest.Each run use loop c

variable [DecidableEq V] (S) (code : Nest M (Loop V) (List (Index V))) (c : Bounds V)

/-- **No statement writes an induction variable** it is in the loop of. It is the
generator that sees to it, by listing these variables as not to be written. -/
def Keeps : Prop :=
  code.Each (fun c run => ∀ m, ∀ q ∈ c, S.get (run m).1 q.1 = S.get m q.1) (fun _ _ => True)
    (fun _ _ => True) c

/-- **The induction variables are wide enough** for bound and step, so that the
increment after the last round does not wrap around. -/
def Wide : Prop :=
  code.Each (fun _ _ => True) (fun _ _ => True)
    (fun _ l => (S.ty l.iv).InRange (l.control.bound + l.control.incr)) c

/-- **As it is generated**: the elements fit, and the loops have sound
controls and variables that are none of those around them. -/
def Built : Prop :=
  code.Each (fun _ _ => True) (fun c e => ∀ i ∈ e, i.Fits c)
    (fun c l => l.control.Sound (S.ty l.iv).signed ∧ ∀ q ∈ c, S.looseMatch l.iv q.1 = false) c

end Nest

section Generate

variable [DecidableEq V] {o : IndexOptions} {noWrites : List V} {c : Bounds V} {t t' : Tape}

omit [DecidableEq V] in
theorem of_isNonwritable {v : V} (h : isNonwritable S noWrites c v = false) :
    ∀ q ∈ c, S.looseMatch v q.1 = false := by
  intro q hq
  unfold isNonwritable at h
  exact Bool.eq_false_iff.mpr (List.any_eq_false.mp (Bool.or_eq_false_iff.mp h).2 q hq)

omit [DecidableEq V] in
theorem selectLoopCtrlVar_writable {vars : List V} {newVar iv : V}
    (h : selectLoopCtrlVar S noWrites c vars newVar t = some (iv, t')) :
    ∀ q ∈ c, S.looseMatch iv q.1 = false := by
  obtain ⟨ov, t₁, hv, h⟩ := Gen.bind_eq_some.mp h
  cases ov with
  | some v =>
    cases h
    have hmem := List.mem_filter.mp (chooseOkVar_mem hv)
    exact of_isNonwritable (by simpa using hmem.2)
  | none =>
    obtain ⟨h, -⟩ := Gen.ofOption_eq_some.mp h
    split at h
    · cases h
    · next hnew =>
      cases h
      exact of_isNonwritable (Bool.eq_false_iff.mpr hnew)

theorem shortest_spec (ds : List Dim) (b : ℕ) :
    ds.foldl (fun b d => if d.len < b then d.len else b) b = b ∨
      ds.foldl (fun b d => if d.len < b then d.len else b) b < 2 ^ 31 := by
  induction ds generalizing b with
  | nil => exact .inl rfl
  | cons d ds ih =>
    rw [List.foldl_cons]
    have hd := d.lt
    split
    · rcases ih d.len with h | h
      · exact .inr (h.trans_lt hd)
      · exact .inr h
    · exact ih b

omit [DecidableEq V] in
/-- **A loop made**, in its context. -/
theorem makeIteration_spec {p : LoopPlan V} {l : Loop V}
    (h : makeIteration S noWrites c p t = some (l, t')) :
    l.control.Sound (S.ty l.iv).signed ∧ ∀ q ∈ c, S.looseMatch l.iv q.1 = false := by
  obtain ⟨iv, t₁, hiv, h⟩ := Gen.bind_eq_some.mp h
  obtain ⟨av, t₂, -, h⟩ := Gen.bind_eq_some.mp h
  obtain ⟨ds, t₃, -, h⟩ := Gen.bind_eq_some.mp h
  obtain ⟨is, t₄, -, h⟩ := Gen.bind_eq_some.mp h
  obtain ⟨bound, t₅, hbound, h⟩ := Gen.bind_eq_some.mp h
  obtain ⟨control, t₆, hcontrol, h⟩ := Gen.bind_eq_some.mp h
  cases h
  refine ⟨Control.makeRandomArrayControl_sound ?_ hcontrol, selectLoopCtrlVar_writable hiv⟩
  obtain ⟨hbound, -⟩ := Gen.ofOption_eq_some.mp hbound
  split at hbound
  · cases hbound
  · next hne =>
    cases hbound
    have hlt : shortest ds < 2 ^ 31 := (shortest_spec ds invalidBound).resolve_left hne
    omega

theorem generate_built {plan : Nest M (LoopPlan V) (List Dim)}
    {code : Nest M (Loop V) (List (Index V))}
    (h : generate S o noWrites plan c t = some (code, t')) : code.Built S c := by
  induction plan generalizing c t t' code with
  | nil =>
    cases h
    trivial
  | other run rest ih =>
    obtain ⟨rest', t₁, hrest, h⟩ := Gen.bind_eq_some.mp h
    cases h
    exact ⟨trivial, ih hrest⟩
  | use ds rest ih =>
    obtain ⟨e, t₁, he, h⟩ := Gen.bind_eq_some.mp h
    obtain ⟨rest', t₂, hrest, h⟩ := Gen.bind_eq_some.mp h
    cases e with
    | none =>
      cases h
      exact ih hrest
    | some e =>
      cases h
      unfold itemizeArray at he
      split at he
      · cases he
      · exact ⟨itemizeDims_fits he, ih hrest⟩
  | ifElse test a b rest iha ihb ih =>
    obtain ⟨a', t₁, ha, h⟩ := Gen.bind_eq_some.mp h
    obtain ⟨b', t₂, hb, h⟩ := Gen.bind_eq_some.mp h
    obtain ⟨rest', t₃, hrest, h⟩ := Gen.bind_eq_some.mp h
    cases h
    exact ⟨iha ha, ihb hb, ih hrest⟩
  | loop p body rest ihb ih =>
    obtain ⟨l, t₁, hl, h⟩ := Gen.bind_eq_some.mp h
    obtain ⟨body', t₂, hbody, h⟩ := Gen.bind_eq_some.mp h
    obtain ⟨rest', t₃, hrest, h⟩ := Gen.bind_eq_some.mp h
    cases h
    exact ⟨makeIteration_spec hl, ihb hbody, ih hrest⟩

end Generate

/-! ## Runs -/

/-- **A point of a run is in order**: the induction variables around it are
between zero and their bounds, and the element used there is in its array. -/
def Event.Ok (S : Vars V M) (e : Event V M) : Prop :=
  InBounds S e.loops e.mem ∧ ∀ i ∈ e.element, i.Within S e.mem

/-- Every point passed is in order. -/
def State.Ok (S : Vars V M) (s : State V M) : Prop := ∀ e ∈ s.trace, e.Ok S

theorem State.Ok.record {s : State V M} {e : Event V M} (h : s.Ok S) (he : e.Ok S) :
    (s.record e).Ok S := by
  intro e' he'
  rcases List.mem_append.mp he' with he' | he'
  · exact h e' he'
  · rw [List.mem_singleton.mp he']
    exact he

theorem InBounds.congr {c : Bounds V} {m m' : M} (h : InBounds S c m)
    (heq : ∀ q ∈ c, S.get m' q.1 = S.get m q.1) : InBounds S c m' := by
  intro q hq
  rw [heq q hq]
  exact h q hq

/-- Enough rounds for every loop of a nest. -/
def Nest.fuel : Nest M (Loop V) (List (Index V)) → ℕ
  | .nil => 0
  | .other _ rest => rest.fuel
  | .use _ rest => rest.fuel
  | .ifElse _ t e rest => max t.fuel (max e.fuel rest.fuel)
  | .loop l body rest => max (l.control.rounds l.control.init + 1) (max body.fuel rest.fuel)

variable [DecidableEq V]

theorem mem_insert {c : Bounds V} {iv : V} {bound : ℕ} {q : V × ℕ} (h : q ∈ c.insert iv bound) :
    q = (iv, bound) ∨ q ∈ c := by
  rcases List.mem_cons.mp h with h | h
  · exact .inl h
  · exact .inr (List.mem_filter.mp h).1

/-- **A loop ends**, if its body keeps the points in order and leaves alone
the induction variables, its own among them. -/
theorem loop_ok {n : ℕ} {l : Loop V} {c : Bounds V} {s : State V M}
    {body : State V M → Option (State V M × Outcome)}
    (hs : l.control.Sound (S.ty l.iv).signed) (hl : ∀ q ∈ c, S.looseMatch l.iv q.1 = false)
    (hw : (S.ty l.iv).InRange (l.control.bound + l.control.incr)) (hc : InBounds S c s.mem)
    (hok : s.Ok S) (hn : l.control.rounds l.control.init < n)
    (hbody : ∀ s₁ : State V M, InBounds S (c.insert l.iv l.control.bound) s₁.mem → s₁.Ok S →
      ∃ s₂ o, body (s₁.record ⟨c.insert l.iv l.control.bound, s₁.mem, []⟩) = some (s₂, o) ∧
        s₂.Ok S ∧ ∀ q ∈ c.insert l.iv l.control.bound, S.get s₂.mem q.1 = S.get s₁.mem q.1) :
    ∃ s' o, Common.Loop.run
        (fun s => (l.test S s.mem).eval.toOption.map fun v => decide (v ≠ 0))
        (fun s => (l.next S s.mem).eval.toOption.map (s.assign S l.iv))
        (fun s => body (s.record ⟨c.insert l.iv l.control.bound, s.mem, []⟩))
        n (s.assign S l.iv ((S.ty l.iv).wrap l.control.init)) = some (s', o) ∧
      s'.Ok S ∧ ∀ q ∈ c, S.get s'.mem q.1 = S.get s.mem q.1 := by
  have hassign : ∀ (s₁ : State V M) (x : ℤ), (∀ q ∈ c, S.get s₁.mem q.1 = S.get s.mem q.1) →
      ∀ q ∈ c, S.get (s₁.assign S l.iv x).mem q.1 = S.get s.mem q.1 := by
    intro s₁ x h q hq
    exact (S.get_set_of_not_match _ _ _ _ (hl q hq)).trans (h q hq)
  have hinit : (S.ty l.iv).InRange l.control.init := hs.inRange hw hs.reaches_init
  have hget : S.get (s.assign S l.iv ((S.ty l.iv).wrap l.control.init)).mem l.iv =
      l.control.init := by
    rw [wrap_of_inRange hinit]
    exact S.get_set _ _ _ hinit
  -- the invariant keeps the variables around it, and its own on the way to the bound
  let Inv := fun s' : State V M => (s'.Ok S ∧ ∀ q ∈ c, S.get s'.mem q.1 = S.get s.mem q.1) ∧
    l.control.Reaches (S.get s'.mem l.iv)
  refine @Common.Loop.run_total _ _ _ _ Inv _
    (fun s' => l.control.rounds (S.get s'.mem l.iv)) ?_ _ _
    ⟨⟨hok, hassign s _ fun _ _ => rfl⟩, ?_⟩ ?_
  · rintro s₁ ⟨⟨hok₁, hsame⟩, hreach⟩
    obtain ⟨b, htest, hb⟩ := (test_decides hs hw hreach).eval_toOption
    cases b with
    | false => exact .inl ⟨htest, hok₁, hsame⟩
    | true =>
      have hholds := hb.mp rfl
      have hvalue := hs.mem_body hreach hholds
      have hc₁ : InBounds S (c.insert l.iv l.control.bound) s₁.mem := by
        intro q hq
        rcases mem_insert hq with rfl | hq
        · exact hvalue
        · exact hc.congr hsame q hq
      obtain ⟨s₂, o, hrun, hok₂, hsame₂⟩ := hbody s₁ hc₁ hok₁
      have hsame' : ∀ q ∈ c, S.get s₂.mem q.1 = S.get s.mem q.1 := by
        intro q hq
        have hne : q.1 ≠ l.iv := by
          intro he
          have hmatch := hl q hq
          rw [he, S.looseMatch_self] at hmatch
          cases hmatch
        exact (hsame₂ q (List.mem_cons_of_mem _
          (List.mem_filter.mpr ⟨hq, by simpa using hne⟩))).trans
          (hsame q hq)
      have hiv : S.get s₂.mem l.iv = S.get s₁.mem l.iv := hsame₂ (l.iv, _) List.mem_cons_self
      rw [← hiv] at hreach hholds
      -- the step stays in the type, so that it comes one round closer to the end
      have hnext := next_returns hs hw hreach hholds
      obtain ⟨hreach', hless⟩ := hs.reaches_succ hreach hholds
      have hin := hs.inRange hw hreach'
      refine .inr ⟨htest, s₂, o, hrun, fun _ => ⟨hok₂, hsame'⟩, fun _ =>
        ⟨s₂.assign S l.iv (l.control.succ (S.get s₂.mem l.iv)), ?_,
          ⟨⟨hok₂, hassign _ _ hsame'⟩, ?_⟩,
          ?_⟩⟩
      · simp only [show (l.next S s₂.mem).eval = .ok _ from hnext]
        rfl
      · rw [show S.get (s₂.assign S l.iv _).mem l.iv = _ from S.get_set _ _ _ hin]
        exact hreach'
      · simp only
        rw [show S.get (s₂.assign S l.iv _).mem l.iv = _ from S.get_set _ _ _ hin, ← hiv]
        exact hless
  · rw [hget]
    exact hs.reaches_init
  · simp only [hget]
    exact hn

/-- **The run of a nest ends**, with every point of it in order and the
induction variables around it as they were. -/
theorem exec_ok {n : ℕ} {code : Nest M (Loop V) (List (Index V))} {c : Bounds V} {s : State V M}
    (hb : code.Built S c) (hw : code.Wide S c) (hk : code.Keeps S c)
    (hty : ∀ q ∈ c, (S.ty q.1).InRange q.2) (hn : code.fuel ≤ n) (hc : InBounds S c s.mem)
    (hs : s.Ok S) :
    ∃ s' o, exec S n code c s = some (s', o) ∧ s'.Ok S ∧
      ∀ q ∈ c, S.get s'.mem q.1 = S.get s.mem q.1 := by
  induction code generalizing c s with
  | nil => exact ⟨s, .normal, rfl, hs, fun _ _ => rfl⟩
  | other run rest ih =>
    obtain ⟨hkeep, hkrest⟩ := hk
    have hsame := hkeep s.mem
    have hc' := hc.congr hsame
    have hok : (State.record { s with mem := (run s.mem).1 } ⟨c, (run s.mem).1, []⟩).Ok S :=
      State.Ok.record hs ⟨hc', fun i hi => absurd hi List.not_mem_nil⟩
    unfold exec
    simp only
    split
    · obtain ⟨s', o, hrun, hok', hsame'⟩ := ih hb.2 hw.2 hkrest hty hn hc' hok
      exact ⟨s', o, hrun, hok', fun q hq => (hsame' q hq).trans (hsame q hq)⟩
    · exact ⟨_, _, rfl, hok, hsame⟩
  | use e rest ih =>
    have hok : (s.record ⟨c, s.mem, e⟩).Ok S :=
      hs.record ⟨hc, fun i hi => (hb.1 i hi).within hty hc⟩
    exact ih hb.2 hw.2 hk.2 hty hn hc hok
  | ifElse test t e rest iht ihe ih =>
    have hn' : t.fuel ≤ n ∧ e.fuel ≤ n ∧ rest.fuel ≤ n := by
      simp only [Nest.fuel] at hn
      omega
    have hbranch : ∃ s₁ o, (if test s.mem then exec S n t c s else exec S n e c s) = some (s₁, o) ∧
        s₁.Ok S ∧ ∀ q ∈ c, S.get s₁.mem q.1 = S.get s.mem q.1 := by
      split
      · exact iht hb.1 hw.1 hk.1 hty hn'.1 hc hs
      · exact ihe hb.2.1 hw.2.1 hk.2.1 hty hn'.2.1 hc hs
    obtain ⟨s₁, o, hrun, hok, hsame⟩ := hbranch
    unfold exec
    rw [hrun]
    simp only [Option.bind_some]
    split
    · obtain ⟨s', o', hrun', hok', hsame'⟩ :=
        ih hb.2.2 hw.2.2 hk.2.2 hty hn'.2.2 (hc.congr hsame) hok
      exact ⟨s', o', hrun', hok', fun q hq => (hsame' q hq).trans (hsame q hq)⟩
    · exact ⟨s₁, o, rfl, hok, hsame⟩
  | loop l body rest ihb ih =>
    obtain ⟨⟨hsound, hl⟩, hbbody, hbrest⟩ := hb
    obtain ⟨hwide, hwbody, hwrest⟩ := hw
    have hn' : l.control.rounds l.control.init < n ∧ body.fuel ≤ n ∧ rest.fuel ≤ n := by
      simp only [Nest.fuel] at hn
      omega
    -- the body runs with the loop's own variable bounded as well
    have hty' : ∀ q ∈ c.insert l.iv l.control.bound, (S.ty q.1).InRange q.2 := by
      intro q hq
      rcases mem_insert hq with rfl | hq
      · obtain ⟨-, hmax⟩ := hwide
        have := (S.ty l.iv).minVal_nonpos
        exact ⟨by simp only; omega, by simp only; omega⟩
      · exact hty q hq
    obtain ⟨s₁, o, hrun, hok, hsame⟩ := loop_ok hsound hl hwide hc hs hn'.1
      fun s₁ hc₁ hok₁ => ihb hbbody hwbody hk.2.1 hty' hn'.2.1 hc₁
        (hok₁.record ⟨hc₁, fun i hi => absurd hi List.not_mem_nil⟩)
    unfold exec
    simp only
    rw [hrun]
    simp only [Option.bind_eq_bind, Option.bind_some]
    split
    · obtain ⟨s', o', hrun', hok', hsame'⟩ :=
        ih hbrest hwrest hk.2.2 hty hn'.2.2 (hc.congr hsame) hok
      exact ⟨s', o', hrun', hok', fun q hq => (hsame' q hq).trans (hsame q hq)⟩
    · exact ⟨s₁, o, rfl, hok, hsame⟩

/-- **Array accesses are in bounds.** Whatever nest the draws make, its loops
terminate from any memory; at every point of the run the induction variables
around it are between zero and their recorded bounds, and every index of an
element used there evaluates within its dimension. -/
theorem generate_inBounds (o : IndexOptions) (noWrites : List V)
    (plan : Nest M (LoopPlan V) (List Dim)) (t t' : Tape) (code : Nest M (Loop V) (List (Index V)))
    (h : generate S o noWrites plan [] t = some (code, t')) (hw : code.Wide S [])
    (hk : code.Keeps S []) :
    ∃ n, ∀ k ≥ n, ∀ m, ∃ s o, exec S k code [] ⟨m, []⟩ = some (s, o) ∧ ∀ e ∈ s.trace, e.Ok S := by
  refine ⟨code.fuel, fun k hk' m => ?_⟩
  obtain ⟨s, o, hrun, hok, -⟩ := exec_ok (s := ⟨m, []⟩) (generate_built h) hw hk
    (fun q hq => absurd hq List.not_mem_nil) hk' (fun q hq => absurd hq List.not_mem_nil)
    (fun e he => absurd he List.not_mem_nil)
  exact ⟨s, o, hrun, hok⟩

/-- Variables of type `int` that do not overlap. -/
def intVars : Vars ℕ (ℕ → ℤ) where
  name v := if v = 0 then "i" else "j"
  ty _ := .int
  isPacked _ := false
  looseMatch v w := decide (v = w)
  looseMatch_self v := decide_eq_true rfl
  get m v := m v
  set := Function.update
  get_set m v x _ := Function.update_self v x m
  get_set_of_not_match m v w x h := Function.update_of_ne (fun e => by simp [e] at h) x m

/-- A rising loop around an element and a falling loop. -/
def twoLoops : Nest (ℕ → ℤ) (Loop ℕ) (List (Index ℕ)) :=
  .loop ⟨0, ⟨.cmpLe, 0, 4, .addAssign, 1, 4⟩⟩
    (.use [⟨0, 1, ⟨6, by decide, by decide⟩⟩]
      (.loop ⟨1, ⟨.cmpGe, 2, 0, .subAssign, 1, 2⟩⟩
        (.use [⟨1, 0, ⟨3, by decide, by decide⟩⟩] .nil) .nil)) .nil

theorem generate_inBounds_twoLoops : ∃ n, ∀ k ≥ n, ∀ m, ∃ s o,
    exec intVars k twoLoops [] ⟨m, []⟩ = some (s, o) ∧ ∀ e ∈ s.trace, e.Ok intVars :=
  generate_inBounds (S := intVars) ⟨true, false⟩ []
    (.loop ⟨[0], 2, [[⟨5, by decide, by decide⟩]]⟩
      (.use [⟨6, by decide, by decide⟩]
        (.loop ⟨[0, 1], 2, [[⟨3, by decide, by decide⟩]]⟩
          (.use [⟨3, by decide, by decide⟩] .nil) .nil)) .nil)
    [0, 0, 0, 0, 1, 0, 99, 0, 0, 0] [] twoLoops rfl
    ⟨by decide, ⟨trivial, by decide, ⟨trivial, trivial⟩, trivial⟩, trivial⟩
    ⟨trivial, ⟨trivial, trivial, ⟨trivial, trivial⟩, trivial⟩, trivial⟩

end ArrayLoop

end CLSmith
