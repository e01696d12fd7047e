import Mathlib.Data.Finset.Card
import Mathlib.Data.Finset.Max
import Mathlib.Data.List.Nodup
import Mathlib.Data.List.Pairwise
import Mathlib.Order.Basic
import Mathlib.Tactic.Ring
/-!
# Relays

A relay hands a turn along a sequence of steps through shared counters.
Every node of step `k` raises one flag by one, and may do so only once it
has seen the flags at the values its checks name. What the checks name is
the relay's law: the value each flag has when exactly the earlier steps
are through, at least for its own flag and for the flags of the step just
before, and never for the flag of a node of its own step. From the law
alone: the flags say which nodes are through, and a node's checks hold
exactly when it is its turn.
-/

namespace CLSmith

namespace Common

/-- **A relay** over the nodes `nodes`, each with its step, its flag and
the flag values it checks. -/
structure Relay (N F : Type*) [DecidableEq N] [DecidableEq F] where
  nodes : Finset N
  step : N → ℕ
  flag : N → F
  checks : N → List (F × ℕ)
  /-- Every check names the value its flag has when the earlier steps are through. -/
  check_value : ∀ n ∈ nodes, ∀ c ∈ checks n,
    c.2 = (nodes.filter fun m => step m < step n ∧ flag m = c.1).card
  /-- No node checks the flag another node of its own step raises. -/
  check_flag : ∀ n ∈ nodes, ∀ m ∈ nodes, step m = step n → m ≠ n →
    ∀ c ∈ checks n, flag m ≠ c.1
  /-- Every node checks its own flag. -/
  own : ∀ n ∈ nodes, (flag n, (nodes.filter fun m => step m < step n ∧ flag m = flag n).card)
    ∈ checks n
  /-- Every node checks that each node of the step before has raised its flag. -/
  prev : ∀ n ∈ nodes, ∀ p ∈ nodes, step p + 1 = step n →
    (flag p, (nodes.filter fun m => step m < step p ∧ flag m = flag p).card + 1) ∈ checks n
  /-- No step is empty. -/
  dense : ∀ n ∈ nodes, 0 < step n → ∃ p ∈ nodes, step p + 1 = step n

namespace Relay

variable {N F : Type*} [DecidableEq N] [DecidableEq F] (R : Relay N F)

/-- How many nodes of steps below `k` raise `f`. -/
def base (k : ℕ) (f : F) : ℕ := (R.nodes.filter fun m => R.step m < k ∧ R.flag m = f).card

/-- The value a node leaves its flag at. -/
def value (n : N) : ℕ := R.base (R.step n) (R.flag n) + 1

/-- How often the nodes of `through` have raised `f`. -/
def count (through : Finset N) (f : F) : ℕ := (through.filter fun m => R.flag m = f).card

/-- **A front**: nodes of the relay, closed under the earlier steps. These are the
sets of nodes that can be through at one time. -/
structure Front (through : Finset N) : Prop where
  subset : through ⊆ R.nodes
  closed : ∀ m ∈ through, ∀ n ∈ R.nodes, R.step n < R.step m → n ∈ through

/-- **It is `n`'s turn**: every earlier step is through and `n` is not. Nodes of one
step have their turn together. -/
structure Turn (through : Finset N) (n : N) : Prop where
  mem : n ∈ R.nodes
  fresh : n ∉ through
  earlier : ∀ m ∈ R.nodes, R.step m < R.step n → m ∈ through

variable {R} {through : Finset N} {n m : N} {f : F} {c : F × ℕ}

theorem front_empty : R.Front ∅ := ⟨by simp, by simp⟩

/-- Below a node that is not through, nothing of a later step is. -/
theorem Front.step_le (h : R.Front through) (hn : n ∈ R.nodes) (hfresh : n ∉ through)
    (hm : m ∈ through) : R.step m ≤ R.step n := by
  by_contra hlt
  exact hfresh (h.closed m hm n hn (by omega))

/-- Two nodes whose turn it is are of one step. -/
theorem Turn.step_eq (hn : R.Turn through n) (hm : R.Turn through m) :
    R.step n = R.step m := by
  rcases Nat.lt_trichotomy (R.step n) (R.step m) with h | h | h
  · exact absurd (hm.earlier n hn.mem h) hn.fresh
  · exact h
  · exact absurd (hn.earlier m hm.mem h) hm.fresh

/-- Someone's turn it is whenever a node is not through. -/
theorem exists_turn (hn : n ∈ R.nodes) (hfresh : n ∉ through) :
    ∃ u, R.Turn through u ∧ R.step u ≤ R.step n := by
  obtain ⟨u, hu, hmin⟩ := Finset.exists_min_image (R.nodes \ through) R.step
    ⟨n, Finset.mem_sdiff.mpr ⟨hn, hfresh⟩⟩
  rw [Finset.mem_sdiff] at hu
  refine ⟨u, ⟨hu.1, hu.2, fun m hm hlt => ?_⟩, hmin n (Finset.mem_sdiff.mpr ⟨hn, hfresh⟩)⟩
  by_contra hmt
  have := hmin m (Finset.mem_sdiff.mpr ⟨hm, hmt⟩)
  omega

/-- Taking one's turn keeps the front. -/
theorem Front.take (h : R.Front through) (hn : R.Turn through n) :
    R.Front (insert n through) := by
  constructor
  · intro m hm
    rcases Finset.mem_insert.mp hm with rfl | hm
    · exact hn.mem
    · exact h.subset hm
  · intro m hm u hu hlt
    rcases Finset.mem_insert.mp hm with rfl | hm
    · exact Finset.mem_insert_of_mem (hn.earlier u hu hlt)
    · exact Finset.mem_insert_of_mem (h.closed m hm u hu hlt)

/-! ## What the counts say -/

theorem count_mono {T T' : Finset N} (h : T ⊆ T') : R.count T f ≤ R.count T' f :=
  Finset.card_le_card (Finset.filter_subset_filter _ h)

theorem count_insert (hfresh : n ∉ through) :
    R.count (insert n through) f = R.count through f + if R.flag n = f then 1 else 0 := by
  unfold count
  rw [Finset.filter_insert]
  split
  · rw [Finset.card_insert_of_notMem (by simp [hfresh])]
  · rfl

/-- A front that has not passed `n` has raised no flag past the value it
has when the steps up to `n`'s own are through. -/
theorem Front.filter_subset (h : R.Front through) (hn : n ∈ R.nodes) (hfresh : n ∉ through)
    (hf : ∀ m ∈ R.nodes, R.step m = R.step n → m ≠ n → R.flag m ≠ f) :
    (through.filter fun m => R.flag m = f) ⊆
      R.nodes.filter fun m => R.step m < R.step n ∧ R.flag m = f := by
  intro m hm
  rw [Finset.mem_filter] at hm ⊢
  refine ⟨h.subset hm.1, ?_, hm.2⟩
  have hle := h.step_le hn hfresh hm.1
  by_contra hlt
  exact hf m (h.subset hm.1) (by omega) (fun e => hfresh (e ▸ hm.1)) hm.2

/-- Once the steps below `k` are through, every flag has at least its
value there. -/
theorem base_le_count {k : ℕ} (h : ∀ m ∈ R.nodes, R.step m < k → m ∈ through) :
    R.base k f ≤ R.count through f := by
  refine Finset.card_le_card fun m hm => ?_
  rw [Finset.mem_filter] at hm ⊢
  exact ⟨h m hm.1 hm.2.1, hm.2.2⟩

/-- In its turn a node finds every flag it checks at the value it checks
for. -/
theorem Turn.check (hfront : R.Front through) (h : R.Turn through n) (hc : c ∈ R.checks n) :
    R.count through c.1 = c.2 := by
  have hle : R.count through c.1 ≤ R.base (R.step n) c.1 :=
    Finset.card_le_card (hfront.filter_subset h.mem h.fresh fun m hm hs hne =>
      R.check_flag n h.mem m hm hs hne c hc)
  have hge : R.base (R.step n) c.1 ≤ R.count through c.1 := base_le_count h.earlier
  rw [R.check_value n h.mem c hc]
  exact Nat.le_antisymm hle hge

/-- Raising its flag takes a node from one below its value. -/
theorem Turn.count_succ (hfront : R.Front through) (h : R.Turn through n) :
    R.count through (R.flag n) + 1 = R.value n := by
  rw [Turn.check hfront h (R.own n h.mem)]
  rfl

/-- A node that is through has left its flag at its value or beyond. -/
theorem Front.value_le (h : R.Front through) (hn : n ∈ through) :
    R.value n ≤ R.count through (R.flag n) := by
  have hN := h.subset hn
  have hsub : insert n (R.nodes.filter fun m => R.step m < R.step n ∧ R.flag m = R.flag n) ⊆
      through.filter fun m => R.flag m = R.flag n := by
    intro m hm
    rcases Finset.mem_insert.mp hm with rfl | hm
    · simp [hn]
    · rw [Finset.mem_filter] at hm ⊢
      exact ⟨h.closed n hn m hm.1 hm.2.1, hm.2.2⟩
  have := Finset.card_le_card hsub
  rwa [Finset.card_insert_of_notMem (by simp)] at this

/-- **A node is through exactly when its flag has reached its value.** -/
theorem Front.mem_iff_value_le (h : R.Front through) (hn : n ∈ R.nodes) :
    n ∈ through ↔ R.value n ≤ R.count through (R.flag n) := by
  refine ⟨h.value_le, fun hle => ?_⟩
  by_contra hfresh
  have hlt : R.count through (R.flag n) ≤ R.base (R.step n) (R.flag n) :=
    Finset.card_le_card (h.filter_subset hn hfresh fun m hm hs hne =>
      R.check_flag n hn m hm hs hne _ (R.own n hn))
  unfold value at hle
  omega

/-- A node that is through finds every flag it checked at its value or
beyond. -/
theorem Front.check_le (h : R.Front through) (hn : n ∈ through) (hc : c ∈ R.checks n) :
    c.2 ≤ R.count through c.1 := by
  rw [R.check_value n (h.subset hn) c hc]
  exact base_le_count fun m hm hlt => h.closed n hn m hm hlt

/-- A node that is through no longer finds its own flag where it checked
for it. -/
theorem Front.own_ne (h : R.Front through) (hn : n ∈ through) :
    R.count through (R.flag n) ≠ R.base (R.step n) (R.flag n) := by
  have := h.value_le hn
  unfold value at this
  omega

/-- **A node's checks hold exactly in its turn.** -/
theorem Front.checks_iff_turn (h : R.Front through) (hn : n ∈ R.nodes) :
    (∀ c ∈ R.checks n, R.count through c.1 = c.2) ↔ R.Turn through n := by
  refine ⟨fun hall => ⟨hn, fun hmem => ?_, fun m hm hlt => ?_⟩, fun ht c hc => ht.check h hc⟩
  · exact h.own_ne hmem (hall _ (R.own n hn))
  · -- the step just before is through by the checks, and the front closes below it
    have hprev : ∀ p ∈ R.nodes, R.step p + 1 = R.step n → p ∈ through := fun p hp hs =>
      (h.mem_iff_value_le hp).mpr (hall _ (R.prev n hn p hp hs)).ge
    obtain ⟨p, hp, hps⟩ := R.dense n hn (by omega)
    rcases Nat.lt_or_ge (R.step m) (R.step p) with hmp | hpm
    · exact h.closed p (hprev p hp hps) m hm hmp
    · exact hprev m hm (by omega)

/-- **A check that holds goes on holding** until the node that makes it is
through: whoever takes a turn in between raises another flag. -/
theorem Turn.check_stable (hfront : R.Front through) (hm : R.Turn through m)
    (hn : n ∈ R.nodes) (hfresh : n ∉ through) (hne : m ≠ n) (hc : c ∈ R.checks n)
    (hold : R.count through c.1 = c.2) : R.count (insert m through) c.1 = c.2 := by
  have hflag : R.flag m ≠ c.1 := by
    intro hf
    rcases Nat.lt_trichotomy (R.step m) (R.step n) with hlt | heq | hgt
    · -- the flag is already where the steps before `n` leave it, so `m` has raised it
      have hsub := hfront.filter_subset hn hfresh fun u hu hs hun =>
        R.check_flag n hn u hu hs hun c hc
      have heq := Finset.eq_of_subset_of_card_le hsub (by
        rw [← R.check_value n hn c hc, ← hold]; rfl)
      have hmem : m ∈ through.filter fun u => R.flag u = c.1 := by
        rw [heq, Finset.mem_filter]
        exact ⟨hm.mem, hlt, hf⟩
      exact hm.fresh (Finset.mem_filter.mp hmem).1
    · exact R.check_flag n hn m hm.mem heq hne c hc hf
    · exact hfresh (hm.earlier n hn hgt)
  rw [count_insert hm.fresh, if_neg hflag, Nat.add_zero, hold]

/-- A turn is only lost by taking it. -/
theorem Turn.keep (hn : R.Turn through n) (hne : m ≠ n) : R.Turn (insert m through) n :=
  ⟨hn.mem, by simp [hn.fresh, Ne.symm hne],
    fun u hu hlt => Finset.mem_insert_of_mem (hn.earlier u hu hlt)⟩

/-! ## Checking one flag at a time -/

/-- **A test in progress**: `left` are the checks of `n` not read yet.
Those read hold while `n` is not through, and its own is among those not
read once it is. -/
structure Testing (R : Relay N F) (through : Finset N) (n : N) (left : List (F × ℕ)) : Prop where
  read : n ∉ through → ∀ c ∈ R.checks n, c ∈ left ∨ R.count through c.1 = c.2
  late : n ∈ through → (R.flag n, R.base (R.step n) (R.flag n)) ∈ left

/-- Nothing is read at the start of a test. -/
theorem Testing.start (hn : n ∈ R.nodes) : R.Testing through n (R.checks n) :=
  ⟨fun _ _ hc => .inl hc, fun _ => R.own n hn⟩

/-- Reading a check that holds. -/
theorem Testing.next {left : List (F × ℕ)} (hfront : R.Front through)
    (h : R.Testing through n (c :: left)) (hc : R.count through c.1 = c.2) :
    R.Testing through n left := by
  refine ⟨fun hfresh d hd => ?_, fun hmem => ?_⟩
  · rcases h.read hfresh d hd with hl | hl
    · rcases List.mem_cons.mp hl with rfl | hl
      · exact .inr hc
      · exact .inl hl
    · exact .inr hl
  · -- a node that is through has moved its own flag, so that check failed
    refine (List.mem_cons.mp (h.late hmem)).resolve_left fun he => ?_
    subst he
    exact hfront.own_ne hmem hc

/-- **A test that has read all its checks** was made in the node's turn. -/
theorem Testing.turn (hfront : R.Front through) (hn : n ∈ R.nodes)
    (h : R.Testing through n []) : R.Turn through n := by
  have hfresh : n ∉ through := fun hmem => by simpa using h.late hmem
  exact (hfront.checks_iff_turn hn).mp fun c hc => (h.read hfresh c hc).resolve_left (by simp)

/-- Another node taking its turn does not spoil a test. -/
theorem Testing.take {left : List (F × ℕ)} (hfront : R.Front through) (hm : R.Turn through m)
    (hn : n ∈ R.nodes) (hne : m ≠ n) (h : R.Testing through n left) :
    R.Testing (insert m through) n left := by
  refine ⟨fun hfresh c hc => ?_, fun hmem => ?_⟩
  · have hfresh' : n ∉ through := fun hmem => hfresh (Finset.mem_insert_of_mem hmem)
    rcases h.read hfresh' c hc with hl | hl
    · exact .inl hl
    · exact .inr (hm.check_stable hfront hn hfresh' hne hc hl)
  · exact h.late (Finset.mem_of_mem_insert_of_ne hmem hne.symm)

end Relay

/-! ## Relays written step by step -/

/-- One node of a relay, as the list of its step has it. -/
structure Leg (N F : Type*) where
  name : N
  flag : F
  checks : List (F × ℕ)

namespace Leg

variable {N F : Type*} [DecidableEq N] [DecidableEq F]

/-- How often the legs of some steps raise `f`. -/
def raised (A : List (List (Leg N F))) (f : F) : ℕ := A.flatten.countP fun x => x.flag = f

/-- **The law of a relay, along its steps.** A node checks each flag for the value the
steps before have raised it to; its own flag and those of the step before are among
them, those of its own step are not. -/
structure Lawful (E : List (List (Leg N F))) : Prop where
  nodup : (E.flatten.map Leg.name).Nodup
  nonempty : ∀ s ∈ E, s ≠ []
  check_value : ∀ A s B, E = A ++ s :: B → ∀ x ∈ s, ∀ c ∈ x.checks, c.2 = raised A c.1
  check_flag : ∀ s ∈ E, ∀ x ∈ s, ∀ y ∈ s, y.name ≠ x.name → ∀ c ∈ x.checks, y.flag ≠ c.1
  own : ∀ A s B, E = A ++ s :: B → ∀ x ∈ s, (x.flag, raised A x.flag) ∈ x.checks
  prev : ∀ A s s' B, E = A ++ s :: s' :: B → ∀ p ∈ s, ∀ x ∈ s',
    (p.flag, raised A p.flag + 1) ∈ x.checks

/-- The step a name stands in. -/
def stepOf (E : List (List (Leg N F))) (n : N) : ℕ := E.findIdx fun s => s.any fun x => x.name = n

/-- The leg of a name. -/
def find (E : List (List (Leg N F))) (n : N) : Option (Leg N F) :=
  E.flatten.find? fun x => x.name = n

variable {E A B : List (List (Leg N F))} {s : List (Leg N F)} {x : Leg N F} {f : F} {n : N}

omit [DecidableEq N] [DecidableEq F] in
theorem exists_split (h : x ∈ E.flatten) : ∃ A s B, E = A ++ s :: B ∧ x ∈ s := by
  obtain ⟨s, hs, hx⟩ := List.mem_flatten.mp h
  obtain ⟨A, B, rfl⟩ := List.append_of_mem hs
  exact ⟨A, s, B, rfl, hx⟩

namespace Lawful

variable (h : Lawful E)
include h

omit [DecidableEq N] in
/-- A name stands for one leg. -/
theorem eq_of_name {y : Leg N F} (hx : x ∈ E.flatten) (hy : y ∈ E.flatten)
    (he : x.name = y.name) : x = y :=
  List.inj_on_of_nodup_map h.nodup hx hy he

theorem find_name (hx : x ∈ E.flatten) : find E x.name = some x := by
  unfold find
  cases hf : E.flatten.find? fun y => y.name = x.name with
  | none =>
    have := List.find?_eq_none.mp hf x hx
    simp at this
  | some y =>
    have hy := List.find?_some hf
    rw [h.eq_of_name (List.mem_of_find?_eq_some hf) hx (by simpa using hy)]

/-- **A leg of the step after `A` has step number the length of `A`.** -/
theorem stepOf_eq (hE : E = A ++ s :: B) (hx : x ∈ s) : stepOf E x.name = A.length := by
  have hnd := h.nodup
  subst hE
  have hlt : A.length < (A ++ s :: B).length := by simp
  refine (List.findIdx_eq hlt).mpr ⟨?_, fun j hj => ?_⟩
  · rw [List.getElem_append_right (Nat.le_refl _)]
    simp only [Nat.sub_self, List.getElem_cons_zero, List.any_eq_true, decide_eq_true_eq]
    exact ⟨x, hx, rfl⟩
  · -- an earlier step with the name in it would be a second leg of that name
    rw [List.getElem_append_left hj]
    by_contra hany
    simp only [Bool.not_eq_false, List.any_eq_true, decide_eq_true_eq] at hany
    obtain ⟨y, hy, he⟩ := hany
    rw [List.flatten_append, List.map_append, List.nodup_append] at hnd
    refine hnd.2.2 y.name (List.mem_map_of_mem ?_) x.name (List.mem_map_of_mem ?_) he
    · exact List.mem_flatten.mpr ⟨_, List.getElem_mem hj, hy⟩
    · exact List.mem_flatten.mpr ⟨s, by simp, hx⟩

end Lawful

end Leg

namespace Relay

open Leg

variable {N F : Type*} [DecidableEq N] [DecidableEq F] [Inhabited F]
variable {E A B : List (List (Leg N F))} {s : List (Leg N F)} {x y : Leg N F} {f : F}

/-- The names of the legs of lower steps that raise a flag are as many as
those legs. -/
theorem card_below (h : Lawful E) (hE : E = A ++ B) :
    (((E.flatten.map Leg.name).toFinset).filter fun m =>
      stepOf E m < A.length ∧ ((find E m).map Leg.flag).getD default = f).card = raised A f := by
  have hset : (((E.flatten.map Leg.name).toFinset).filter fun m =>
      stepOf E m < A.length ∧ ((find E m).map Leg.flag).getD default = f) =
      ((A.flatten.filter fun x => x.flag = f).map Leg.name).toFinset := by
    ext m
    simp only [Finset.mem_filter, List.mem_toFinset, List.mem_map, List.mem_filter,
      decide_eq_true_eq]
    constructor
    · rintro ⟨⟨x, hx, rfl⟩, hlt, hf⟩
      rw [h.find_name hx] at hf
      refine ⟨x, ⟨?_, hf⟩, rfl⟩
      rw [hE, List.flatten_append, List.mem_append] at hx
      refine hx.resolve_right fun hB => ?_
      obtain ⟨B₁, s, B₂, rfl, hs⟩ := exists_split hB
      rw [h.stepOf_eq (A := A ++ B₁) (by simpa using hE) hs, List.length_append] at hlt
      omega
    · rintro ⟨x, ⟨hx, hf⟩, rfl⟩
      obtain ⟨A₁, s, A₂, rfl, hs⟩ := exists_split hx
      have hxE : x ∈ E.flatten := by
        rw [hE, List.flatten_append]
        exact List.mem_append_left _ hx
      refine ⟨⟨x, hxE, rfl⟩, ?_, ?_⟩
      · rw [h.stepOf_eq (A := A₁) (B := A₂ ++ B) (by simpa using hE) hs]
        simp
      · rw [h.find_name hxE]
        exact hf
  have hnd : ((A.flatten.filter fun x => x.flag = f).map Leg.name).Nodup := by
    have := h.nodup
    rw [hE, List.flatten_append, List.map_append] at this
    exact (List.nodup_append.mp this).1.sublist (List.filter_sublist.map _)
  rw [hset, List.toFinset_card_of_nodup hnd, List.length_map, raised,
    List.countP_eq_length_filter]

/-- **The relay of a lawful list of steps.** Its fields are looked up by name, which
the law makes unique. -/
def ofSteps (E : List (List (Leg N F))) (h : Lawful E) : Relay N F where
  nodes := (E.flatten.map Leg.name).toFinset
  step := stepOf E
  flag n := ((find E n).map Leg.flag).getD default
  checks n := ((find E n).map Leg.checks).getD []
  check_value := by
    intro n hn c hc
    simp only [List.mem_toFinset, List.mem_map] at hn
    obtain ⟨x, hx, rfl⟩ := hn
    obtain ⟨A, s, B, hE, hs⟩ := exists_split hx
    rw [h.find_name hx] at hc
    rw [h.stepOf_eq hE hs, card_below h hE]
    exact h.check_value A s B hE x hs c hc
  check_flag := by
    intro n hn m hm hstep hne c hc
    simp only [List.mem_toFinset, List.mem_map] at hn hm
    obtain ⟨x, hx, rfl⟩ := hn
    obtain ⟨y, hy, rfl⟩ := hm
    obtain ⟨A, s, B, hE, hs⟩ := exists_split hx
    obtain ⟨A', s', B', hE', hs'⟩ := exists_split hy
    rw [h.stepOf_eq hE hs, h.stepOf_eq hE' hs'] at hstep
    -- two nodes of one step number are of the same step of the list
    obtain ⟨-, he⟩ := List.append_inj (hE.symm.trans hE') hstep.symm
    obtain rfl : s = s' := (List.cons.inj he).1
    rw [h.find_name hx] at hc
    rw [h.find_name hy]
    exact h.check_flag s (by rw [hE]; simp) x hs y hs' hne c hc
  own := by
    intro n hn
    simp only [List.mem_toFinset, List.mem_map] at hn
    obtain ⟨x, hx, rfl⟩ := hn
    obtain ⟨A, s, B, hE, hs⟩ := exists_split hx
    rw [h.stepOf_eq hE hs, card_below h hE, h.find_name hx]
    exact h.own A s B hE x hs
  prev := by
    intro n hn p hp hstep
    simp only [List.mem_toFinset, List.mem_map] at hn hp
    obtain ⟨x, hx, rfl⟩ := hn
    obtain ⟨y, hy, rfl⟩ := hp
    obtain ⟨A, s, B, hE, hs⟩ := exists_split hy
    obtain ⟨A', s', B', hE', hs'⟩ := exists_split hx
    rw [h.stepOf_eq hE hs, h.stepOf_eq hE' hs'] at hstep
    -- the step of the node is the one right behind that of its predecessor
    have hE₁ : E = (A ++ [s]) ++ B := by rw [hE]; simp
    obtain ⟨-, he⟩ := List.append_inj (hE₁.symm.trans hE') (by simpa using hstep)
    rw [h.stepOf_eq hE hs, card_below h hE, h.find_name hy, h.find_name hx]
    exact h.prev A s s' B' (by rw [hE, he]) y hs x hs'
  dense := by
    intro n hn hpos
    simp only [List.mem_toFinset, List.mem_map] at hn
    obtain ⟨x, hx, rfl⟩ := hn
    obtain ⟨A, s, B, hE, hs⟩ := exists_split hx
    rw [h.stepOf_eq hE hs] at hpos ⊢
    obtain ⟨A', s', rfl⟩ := List.eq_nil_or_concat A |>.resolve_left (by rintro rfl; simp at hpos)
    have hs'E : s' ∈ E := by rw [hE]; simp
    obtain ⟨y, hy⟩ := List.exists_mem_of_ne_nil s' (h.nonempty s' hs'E)
    refine ⟨y.name, ?_, ?_⟩
    · rw [List.mem_toFinset]
      exact List.mem_map_of_mem (List.mem_flatten.mpr ⟨s', hs'E, hy⟩)
    · rw [h.stepOf_eq (A := A') (B := s :: B) (by simpa using hE) hy]
      simp

section OfSteps

variable (h : Lawful E)

theorem mem_ofSteps {n : N} : n ∈ (ofSteps E h).nodes ↔ ∃ x ∈ E.flatten, x.name = n := by
  simp only [ofSteps, List.mem_toFinset, List.mem_map]

theorem flag_ofSteps (hx : x ∈ E.flatten) : (ofSteps E h).flag x.name = x.flag := by
  simp [ofSteps, h.find_name hx]

theorem checks_ofSteps (hx : x ∈ E.flatten) : (ofSteps E h).checks x.name = x.checks := by
  simp [ofSteps, h.find_name hx]

theorem step_ofSteps (hE : E = A ++ s :: B) (hx : x ∈ s) :
    (ofSteps E h).step x.name = A.length := h.stepOf_eq hE hx

theorem base_ofSteps (hE : E = A ++ s :: B) (hx : x ∈ s) :
    (ofSteps E h).base ((ofSteps E h).step x.name) f = raised A f := by
  rw [step_ofSteps h hE hx]
  exact card_below h hE

/-- Steps are numbered in their order. -/
theorem step_le_of_pairwise : (E.flatten.map Leg.name).Pairwise fun m n =>
    (ofSteps E h).step m ≤ (ofSteps E h).step n := by
  have key : ∀ B A, E = A ++ B → (B.flatten.map Leg.name).Pairwise fun m n =>
      (ofSteps E h).step m ≤ (ofSteps E h).step n := by
    intro B
    induction B with
    | nil => simp
    | cons s B ih =>
      intro A hE
      rw [List.flatten_cons, List.map_append, List.pairwise_append]
      refine ⟨?_, ih (A ++ [s]) (by simpa using hE), ?_⟩
      · rw [List.pairwise_map]
        refine List.pairwise_of_forall_mem_list fun x hx y hy => ?_
        rw [step_ofSteps h hE hx, step_ofSteps h hE hy]
      · intro m hm n hn
        obtain ⟨x, hx, rfl⟩ := List.mem_map.mp hm
        obtain ⟨y, hy, rfl⟩ := List.mem_map.mp hn
        obtain ⟨B₁, s', B₂, rfl, hs'⟩ := exists_split hy
        rw [step_ofSteps h hE hx,
          step_ofSteps h (A := A ++ s :: B₁) (B := B₂) (by simpa using hE) hs']
        simp
  exact key E [] rfl

end OfSteps

end Relay

end Common

end CLSmith
