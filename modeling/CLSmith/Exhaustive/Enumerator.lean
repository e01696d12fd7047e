import CLSmith.Common.Radix
import Mathlib.Data.String.Basic
/-!
# The enumerator of the exhaustive mode

`Enumerator<Name>`: a map of elements with a bound each, stepped through all
their values by two positions in the map. A position is the number of the
elements before it, `objs_.end()` the number of all; a decrement at
`objs_.begin()` leaves the map, which C++ does not define, and the run fails.
Elements are added before `begin()` sets the positions.
-/

namespace CLSmith

open Common

/-- **An element**, with what its constructor asserts and its setters keep: its value
is below its bound. -/
structure EnumObject where
  bound : ℕ
  currentValue : ℕ
  isBool : Bool
  boolValue : Bool
  changed : Bool
  value_lt : currentValue < bound

namespace EnumObject

/-- The constructor. -/
def mk' (bound : ℕ) (isBool boolValue : Bool) : Option EnumObject :=
  if h : 0 < bound then some ⟨bound, 0, isBool, boolValue, false, h⟩ else none

variable (o : EnumObject)

/-- `next`: what becomes of the element, and whether it had a next value. -/
def next : EnumObject × Bool :=
  if h : o.currentValue + 1 < o.bound then
    ({ o with currentValue := o.currentValue + 1, changed := true, value_lt := h }, true)
  else (o, false)

def goodValue : Bool := decide (o.currentValue < o.bound)

def clearValue : EnumObject :=
  { o with currentValue := 0, value_lt := Nat.lt_of_le_of_lt (Nat.zero_le _) o.value_lt }

def resetChanged : EnumObject := { o with changed := false }

/-- The element as a digit. -/
def digit : ℕ × ℕ := (o.currentValue, o.bound)

end EnumObject

/-- **An enumerator**: the elements in the order of their names, and the two positions
it goes forward and back from. -/
structure Enumerator (Name : Type) where
  objs : List (Name × EnumObject) := []
  forwardPos : ℕ := 0
  backwardPos : ℕ := 0

namespace Enumerator

variable {Name : Type}

/-! ## Elements -/

section Elements

variable [LinearOrder Name]

/-- `objs_[name] = obj`, in the order of the map; the name is asserted to be
new. -/
def insert (name : Name) (o : EnumObject) :
    List (Name × EnumObject) → Option (List (Name × EnumObject))
  | [] => some [(name, o)]
  | x :: l =>
    if name < x.1 then some ((name, o) :: x :: l)
    else if name = x.1 then none
    else (insert name o l).map (x :: ·)

/-- The calls that add an element: one with a bound, and the two for a switch that may
be fixed. -/
inductive Add (Name : Type)
  | elem (name : Name) (bound : ℕ)
  | boolElemOfBool (name : Name) (value : Bool)
  | boolElem (name : Name) (value : ℕ)

/-- `add_elem`, `add_bool_elem_of_bool` and `add_bool_elem`. -/
def add (objs : List (Name × EnumObject)) : Add Name → Option (List (Name × EnumObject))
  | .elem name bound => do insert name (← EnumObject.mk' bound false false) objs
  | .boolElemOfBool name value => do
    insert name (← EnumObject.mk' (if value then 2 else 1) true false) objs
  | .boolElem name value => do
    if value = 0 then insert name (← EnumObject.mk' 1 true false) objs
    else if value = 100 then insert name (← EnumObject.mk' 1 true true) objs
    else insert name (← EnumObject.mk' 2 true false) objs

/-- An enumerator with its elements, the positions at the end of the map. -/
def build (adds : List (Add Name)) : Option (Enumerator Name) := do
  let objs ← adds.foldlM add []
  some ⟨objs, objs.length, objs.length⟩

end Elements

/-! ## Iteration -/

variable (e : Enumerator Name)

/-- `--i`, which has to stay in the map. -/
def decrement : ℕ → Option ℕ
  | 0 => none
  | p + 1 => some p

def resetAllChanged : Enumerator Name :=
  { e with objs := e.objs.map fun x => (x.1, x.2.resetChanged) }

def resetPos : Option (Enumerator Name) := do
  let forward ← decrement e.objs.length
  let backward ← decrement forward
  some { e with forwardPos := forward, backwardPos := backward }

/-- `begin`, with whether it returns the enumerator and not `NULL`. -/
def begin : Option (Enumerator Name × Bool) := do
  let e ← e.resetPos
  let x ← e.objs[e.forwardPos]?
  some (e, !(e.forwardPos == 0 && !x.2.goodValue))

/-- `(*pos).second` after its `next`. -/
def setObj (p : ℕ) (x : Name × EnumObject) (o : EnumObject) : Enumerator Name :=
  { e with objs := e.objs.set p (x.1, o) }

def resetAfterBackwardPos : Enumerator Name :=
  { e with
    objs := e.objs.take (e.backwardPos + 1) ++
      (e.objs.drop (e.backwardPos + 1)).map fun x => (x.1, x.2.clearValue)
    forwardPos := e.backwardPos + 1 }

/-- `roll_back_current_pos` with `backward_pos_` where the argument says. -/
def rollBackFrom : ℕ → Option (Enumerator Name × Bool)
  | 0 => do
    let x ← e.objs[0]?
    match x.2.next with
    | (_, false) => some ({ e with backwardPos := 0 }, false)
    | (o, true) => do
      let e ← ({ e with backwardPos := 0 }.setObj 0 x o).resetAfterBackwardPos.resetPos
      some (e, true)
  | p + 1 => do
    let x ← e.objs[p + 1]?
    match x.2.next with
    | (_, false) => rollBackFrom p
    | (o, true) => do
      let e ← ({ e with backwardPos := p + 1 }.setObj (p + 1) x o).resetAfterBackwardPos.resetPos
      some (e, true)

def rollBackCurrentPos : Option (Enumerator Name × Bool) := e.rollBackFrom e.backwardPos

/-- `next`, which calls itself where the position it goes on to is not the
end, as far as the fuel goes. -/
def nextFrom : ℕ → Enumerator Name → Option (Enumerator Name × Bool)
  | 0, _ => none
  | n + 1, e => do
    let e := e.resetAllChanged
    -- the assertion that `forward_pos_` is not the end
    let x ← e.objs[e.forwardPos]?
    match x.2.next with
    | (o, true) => some (e.setObj e.forwardPos x o, true)
    | (_, false) =>
      let e := { e with forwardPos := e.forwardPos + 1 }
      if e.forwardPos = e.objs.length then e.rollBackCurrentPos
      else do nextFrom n (← e.resetPos)

def next : Option (Enumerator Name × Bool) := nextFrom (e.objs.length + 1) e

/-- The tuple of the current values. -/
def values : List ℕ := e.objs.map fun x => x.2.currentValue

/-- The bounds of the elements. -/
def bounds : List ℕ := e.objs.map fun x => x.2.bound

/-- The tuples seen from an enumerator on: its own, and those after each
`next` that does not return `NULL`. -/
def observeFrom : ℕ → Enumerator Name → Option (List (List ℕ))
  | 0, _ => none
  | n + 1, e =>
    match e.next with
    | none => none
    | some (_, false) => some [e.values]
    | some (e', true) => (observeFrom n e').map (e.values :: ·)

/-- **`for (i = begin(); i != end(); i = i->next())`**, for at most `n` tuples. -/
def observe (n : ℕ) : Option (List (List ℕ)) :=
  match e.begin with
  | none => none
  | some (_, false) => some []
  | some (e', true) => observeFrom n e'

/-- **The loop ends in the map and sees every tuple below the bounds once.** Neither
the order of the tuples nor the number of rounds is part of it. -/
def VisitsAll : Prop :=
  ∃ n l, e.observe n = some l ∧ l.Nodup ∧ ∀ t, t ∈ l ↔ Radix.Below e.bounds t

end Enumerator

/-! ## One step -/

theorem EnumObject.next_cases (o : EnumObject) :
    (∃ o', o.next = (o', true) ∧ o'.digit = (o.currentValue + 1, o.bound)) ∨
      o.next = (o, false) ∧ o.currentValue + 1 = o.bound := by
  by_cases h : o.currentValue + 1 < o.bound
  · refine .inl ⟨_, dif_pos h, rfl⟩
  · have hlt := o.value_lt
    exact .inr ⟨dif_neg h, by omega⟩

namespace Enumerator

variable {Name : Type} {e e' : Enumerator Name}

/-- The elements as digits. -/
def digits (e : Enumerator Name) : List (ℕ × ℕ) := e.objs.map fun x => x.2.digit

/-- **The positions are those `reset_pos` sets**: the last element and the
one before it. -/
def Positioned (e : Enumerator Name) : Prop :=
  e.forwardPos + 1 = e.objs.length ∧ e.backwardPos + 2 = e.objs.length

/-- `e'` is one further than `e`. -/
def Advanced (e e' : Enumerator Name) : Prop :=
  e'.Positioned ∧ e'.bounds = e.bounds ∧ Radix.rank e'.digits = Radix.rank e.digits + 1

theorem good_digits : Radix.Good e.digits := by
  intro d hd
  obtain ⟨x, _, rfl⟩ := List.mem_map.mp hd
  exact x.2.value_lt

theorem snd_digits : e.digits.map Prod.snd = e.bounds := by
  unfold digits bounds
  rw [List.map_map]
  rfl

theorem digits_eq : Radix.digits e.bounds e.values = e.digits := by
  unfold Radix.digits bounds values digits
  rw [List.zip_map']
  rfl

theorem below_values : Radix.Below e.bounds e.values := by
  unfold Radix.Below bounds values
  rw [List.forall₂_map_left_iff, List.forall₂_map_right_iff, List.forall₂_same]
  exact fun x _ => x.2.value_lt

theorem resetPos_eq (h : 2 ≤ e.objs.length) : ∃ e', e.resetPos = some e' ∧ e'.objs = e.objs ∧
    e'.Positioned := by
  obtain ⟨n, hn⟩ : ∃ n, e.objs.length = n + 2 := ⟨e.objs.length - 2, by omega⟩
  have heq : e.resetPos = some { e with forwardPos := n + 1, backwardPos := n } := by
    unfold resetPos
    rw [hn]
    rfl
  exact ⟨_, heq, rfl, by rw [Positioned, hn]; exact ⟨rfl, rfl⟩⟩

/-- **The element a roll back stops at goes up**, and those behind it, all
at their last values, start again. -/
theorem resetAfter_advanced {A B : List (Name × EnumObject)} {x : Name × EnumObject}
    {o : EnumObject} (hobjs : e.objs = A ++ x :: B) (hfull : Radix.Full (B.map fun x => x.2.digit))
    (hlen : 2 ≤ e.objs.length) (ho : o.digit = (x.2.currentValue + 1, x.2.bound)) :
    ∃ e', ({ e with backwardPos := A.length }.setObj A.length x o).resetAfterBackwardPos.resetPos =
      some e' ∧ Advanced e e' := by
  have hset : (A ++ x :: B).set A.length (x.1, o) = A ++ (x.1, o) :: B := by
    rw [List.set_append_right _ _ (Nat.le_refl _), Nat.sub_self]
    rfl
  have hsplit : A ++ (x.1, o) :: B = (A ++ [(x.1, o)]) ++ B := by simp
  have hA : (A ++ [(x.1, o)]).length = A.length + 1 := by simp
  have hafter : ({ e with backwardPos := A.length }.setObj A.length x o).resetAfterBackwardPos.objs
      = A ++ (x.1, o) :: B.map fun x => (x.1, x.2.clearValue) := by
    show ((e.objs.set A.length (x.1, o)).take (A.length + 1) ++
      ((e.objs.set A.length (x.1, o)).drop (A.length + 1)).map fun x => (x.1, x.2.clearValue)) = _
    rw [hobjs, hset, hsplit, ← hA, List.take_left, List.drop_left]
    simp
  -- The positions are put back on the list so changed, which is as long as it was.
  obtain ⟨e', he', hobjs', hpos⟩ := resetPos_eq
    (e := ({ e with backwardPos := A.length }.setObj A.length x o).resetAfterBackwardPos)
    (by rw [hafter]; rw [hobjs] at hlen; simpa using hlen)
  refine ⟨e', he', hpos, ?_, ?_⟩
  · have hbound : o.bound = x.2.bound := congrArg Prod.snd ho
    unfold bounds
    rw [hobjs', hafter, hobjs]
    simp [hbound, EnumObject.clearValue]
  · have hclear : (B.map fun x => (x.1, x.2.clearValue)).map (fun x => x.2.digit) =
        Radix.clear (B.map fun x => x.2.digit) := by
      unfold Radix.clear
      rw [List.map_map, List.map_map]
      rfl
    -- The objects behind the advanced one were full and are cleared: the carry of an addition
    -- by one.
    have hcarry := Radix.rank_carry (A := A.map fun x => x.2.digit) (v := x.2.currentValue)
      (b := x.2.bound) hfull
    unfold digits
    rw [hobjs', hafter, hobjs, List.map_append, List.map_append, List.map_cons, List.map_cons,
      hclear]
    rw [ho]
    exact hcarry

/-- **A roll back carries**, or finds every element at its last value. -/
theorem rollBackFrom_spec {A B : List (Name × EnumObject)} {x : Name × EnumObject}
    (hobjs : e.objs = A ++ x :: B) (hfull : Radix.Full (B.map fun x => x.2.digit))
    (hlen : 2 ≤ e.objs.length) :
    (∃ e', e.rollBackFrom A.length = some (e', true) ∧ Advanced e e') ∨
      ((∃ e', e.rollBackFrom A.length = some (e', false)) ∧ Radix.Full e.digits) := by
  induction hn : A.length generalizing A B x with
  | zero =>
    obtain rfl := List.length_eq_zero_iff.mp hn
    have hget : e.objs[0]? = some x := by rw [hobjs]; rfl
    obtain ⟨o, hnext, ho⟩ | ⟨hnext, hlast⟩ := x.2.next_cases
    · obtain ⟨e', he', hadv⟩ := resetAfter_advanced hobjs hfull hlen ho
      refine .inl ⟨e', ?_, hadv⟩
      rw [List.length_nil] at he'
      simp only [rollBackFrom, hget, hnext, he', Option.bind_eq_bind, Option.bind_some]
    · refine .inr ⟨⟨{ e with backwardPos := 0 }, ?_⟩, ?_⟩
      · simp only [rollBackFrom, hget, hnext, Option.bind_eq_bind, Option.bind_some]
      · unfold digits
        rw [hobjs, List.nil_append, List.map_cons]
        exact List.forall_mem_cons.mpr ⟨hlast, hfull⟩
  | succ n ih =>
    have hget : e.objs[n + 1]? = some x := by
      rw [hobjs, ← hn, List.getElem?_append_right (Nat.le_refl _), Nat.sub_self]
      rfl
    obtain ⟨o, hnext, ho⟩ | ⟨hnext, hlast⟩ := x.2.next_cases
    · obtain ⟨e', he', hadv⟩ := resetAfter_advanced hobjs hfull hlen ho
      refine .inl ⟨e', ?_, hadv⟩
      rw [hn] at he'
      simp only [rollBackFrom, hget, hnext, he', Option.bind_eq_bind, Option.bind_some]
    · -- the element is full as well: on to the one before it
      have hroll : e.rollBackFrom (n + 1) = e.rollBackFrom n := by
        rw [rollBackFrom, hget, Option.bind_eq_bind, Option.bind_some, hnext]
      obtain ⟨A', y, rfl⟩ : ∃ A' y, A = A' ++ [y] :=
        ⟨A.dropLast, A.getLast (by rintro rfl; cases hn), (List.dropLast_append_getLast _).symm⟩
      have hA' : A'.length = n := by simpa using hn
      rw [hroll]
      refine ih (A := A') (x := y) (B := x :: B) ?_ ?_ hA'
      · rw [hobjs]
        simp
      · rw [List.map_cons]
        exact List.forall_mem_cons.mpr ⟨hlast, hfull⟩

theorem resetAllChanged_digits : e.resetAllChanged.digits = e.digits := by
  unfold digits resetAllChanged
  rw [List.map_map]
  rfl

theorem resetAllChanged_bounds : e.resetAllChanged.bounds = e.bounds := by
  unfold bounds resetAllChanged
  rw [List.map_map]
  rfl

/-- The last element goes up. -/
theorem setObj_advanced {A : List (Name × EnumObject)} {x : Name × EnumObject} {o : EnumObject}
    (h : e.Positioned) (hobjs : e.objs = A ++ [x])
    (ho : o.digit = (x.2.currentValue + 1, x.2.bound)) : Advanced e (e.setObj A.length x o) := by
  have hset : (e.setObj A.length x o).objs = A ++ [(x.1, o)] := by
    show e.objs.set A.length (x.1, o) = _
    rw [hobjs, List.set_append_right _ _ (Nat.le_refl _), Nat.sub_self]
    rfl
  have hlen : (e.setObj A.length x o).objs.length = e.objs.length := List.length_set
  refine ⟨⟨h.1.trans hlen.symm, h.2.trans hlen.symm⟩, ?_, ?_⟩
  · have hbound : o.bound = x.2.bound := congrArg Prod.snd ho
    unfold bounds
    rw [hset, hobjs]
    simp [hbound]
  · have hcarry := Radix.rank_carry (A := A.map fun x => x.2.digit) (v := x.2.currentValue)
      (b := x.2.bound) (B := []) fun _ h => nomatch h
    unfold digits
    rw [hset, hobjs, List.map_append, List.map_append, List.map_singleton, List.map_singleton, ho]
    exact hcarry

/-- **`next` goes one further**, or returns `NULL` at the last tuple. -/
theorem next_spec (h : e.Positioned) :
    (∃ e', e.next = some (e', true) ∧ Advanced e e') ∨
      ((∃ e', e.next = some (e', false)) ∧ Radix.Full e.digits) := by
  have hlen : e.resetAllChanged.objs.length = e.objs.length := List.length_map _
  have hposn : e.resetAllChanged.Positioned := ⟨h.1.trans hlen.symm, h.2.trans hlen.symm⟩
  obtain ⟨hf, hb⟩ := hposn
  -- the last element and the one before it
  obtain ⟨A, y, x, hobjs⟩ : ∃ A y x, e.resetAllChanged.objs = A ++ [y, x] := by
    have hdrop : (e.resetAllChanged.objs.drop e.resetAllChanged.backwardPos).length = 2 := by
      rw [List.length_drop]
      omega
    obtain ⟨y, x, hyx⟩ := List.length_eq_two.mp hdrop
    exact ⟨_, y, x, by rw [← hyx, List.take_append_drop]⟩
  have hsum : e.resetAllChanged.objs.length = A.length + 2 := by rw [hobjs]; simp
  have hfA : e.resetAllChanged.forwardPos = (A ++ [y]).length := by
    rw [List.length_append]; simp; omega
  have hbA : e.resetAllChanged.backwardPos = A.length := by omega
  have hobjs' : e.resetAllChanged.objs = (A ++ [y]) ++ [x] := by rw [hobjs]; simp
  have hget : e.resetAllChanged.objs[e.resetAllChanged.forwardPos]? = some x := by
    rw [hfA, hobjs', List.getElem?_append_right (Nat.le_refl _), Nat.sub_self]
    rfl
  have hadvanced : ∀ {e'}, Advanced e.resetAllChanged e' → Advanced e e' := by
    intro e' h'
    unfold Advanced at h' ⊢
    rwa [resetAllChanged_bounds, resetAllChanged_digits] at h'
  obtain ⟨o, hnext, ho⟩ | ⟨hnext, hlast⟩ := x.2.next_cases
  · refine .inl ⟨e.resetAllChanged.setObj e.resetAllChanged.forwardPos x o, ?_, ?_⟩
    · rw [next, nextFrom]
      simp only [hget, hnext, Option.bind_eq_bind, Option.bind_some]
    · rw [hfA]
      exact hadvanced (setObj_advanced ⟨hf, hb⟩ hobjs' ho)
  · -- the end of the map: roll back
    have hend : e.resetAllChanged.forwardPos + 1 = e.resetAllChanged.objs.length := hf
    have hroll : e.next = ({ e.resetAllChanged with
        forwardPos := e.resetAllChanged.forwardPos + 1 } : Enumerator Name).rollBackFrom
          A.length := by
      rw [next, nextFrom]
      simp only [hget, hnext, Option.bind_eq_bind, Option.bind_some, hend, if_true,
        rollBackCurrentPos, hbA]
    have hspec := rollBackFrom_spec (e := { e.resetAllChanged with
        forwardPos := e.resetAllChanged.forwardPos + 1 }) (A := A) (x := y) (B := [x])
      hobjs (by rintro d (_ | ⟨_, ⟨⟩⟩); exact hlast)
      (by show 2 ≤ e.resetAllChanged.objs.length; omega)
    rw [← hroll] at hspec
    rcases hspec with ⟨e', he', hadv⟩ | ⟨hnull, hfull⟩
    · exact .inl ⟨e', he', hadvanced hadv⟩
    · refine .inr ⟨hnull, ?_⟩
      rw [← resetAllChanged_digits]
      exact hfull

/-! ## The whole iteration -/

/-- The walk from an enumerator on: the ranks from its own to the last. -/
theorem observeFrom_spec {n : ℕ} (h : e.Positioned)
    (hn : Radix.rank e.digits + n = Radix.count e.digits) :
    ∃ l, observeFrom n e = some l ∧ (∀ t ∈ l, Radix.Below e.bounds t) ∧
      (l.map fun t => Radix.rank (Radix.digits e.bounds t)) =
        List.range' (Radix.rank e.digits) n := by
  induction n generalizing e with
  | zero =>
    have hlt := Radix.rank_lt e.good_digits
    omega
  | succ n ih =>
    rcases next_spec h with ⟨e', he', hpos, hbounds, hrank⟩ | ⟨⟨e', he'⟩, hfull⟩
    · have hcount : Radix.count e'.digits = Radix.count e.digits := by
        unfold Radix.count
        rw [snd_digits, snd_digits, hbounds]
      obtain ⟨l, hl, hbelow, hranks⟩ := ih hpos (by omega)
      refine ⟨e.values :: l, ?_, ?_, ?_⟩
      · rw [observeFrom, he']
        simp only [hl, Option.map_some]
      · rw [hbounds] at hbelow
        exact List.forall_mem_cons.mpr ⟨below_values, hbelow⟩
      · rw [List.map_cons, digits_eq, List.range'_succ, ← hrank, ← hranks, hbounds]
    · have hlast := Radix.rank_full hfull
      obtain rfl : n = 0 := by omega
      refine ⟨[e.values], ?_, ?_, ?_⟩
      · rw [observeFrom, he']
      · exact List.forall_mem_singleton.mpr below_values
      · rw [List.map_singleton, digits_eq]
        rfl

/-- Short of two elements there is no position before the last. -/
theorem begin_none (h : e.objs.length < 2) : e.begin = none := by
  have hreset : e.resetPos = none := by
    unfold resetPos
    obtain h0 | h1 : e.objs.length = 0 ∨ e.objs.length = 1 := by omega
    · rw [h0]
      rfl
    · rw [h1]
      rfl
  unfold begin
  rw [hreset]
  rfl

section Build

variable [LinearOrder Name]

theorem insert_zero {name : Name} {o : EnumObject} {l m : List (Name × EnumObject)}
    (h : insert name o l = some m) (ho : o.currentValue = 0)
    (hl : ∀ x ∈ l, x.2.currentValue = 0) : ∀ x ∈ m, x.2.currentValue = 0 := by
  induction l generalizing m with
  | nil =>
    obtain rfl := Option.some.inj h
    exact List.forall_mem_singleton.mpr ho
  | cons y l ih =>
    have hy := List.forall_mem_cons.mp hl
    unfold insert at h
    split at h
    · obtain rfl := Option.some.inj h
      exact List.forall_mem_cons.mpr ⟨ho, hl⟩
    · split at h
      · cases h
      · obtain ⟨m', hm', rfl⟩ := Option.map_eq_some_iff.mp h
        exact List.forall_mem_cons.mpr ⟨hy.1, ih hm' hy.2⟩

/-- The element of a constructor starts at zero. -/
theorem bind_insert_zero {bound : ℕ} {isBool boolValue : Bool} {name : Name}
    {l m : List (Name × EnumObject)}
    (h : ((EnumObject.mk' bound isBool boolValue).bind fun o => insert name o l) = some m)
    (hl : ∀ x ∈ l, x.2.currentValue = 0) : ∀ x ∈ m, x.2.currentValue = 0 := by
  obtain ⟨o, ho, h⟩ := Option.bind_eq_some_iff.mp h
  unfold EnumObject.mk' at ho
  split at ho
  · obtain rfl := Option.some.inj ho
    exact insert_zero h rfl hl
  · cases ho

theorem add_zero {a : Add Name} {l m : List (Name × EnumObject)} (h : add l a = some m)
    (hl : ∀ x ∈ l, x.2.currentValue = 0) : ∀ x ∈ m, x.2.currentValue = 0 := by
  cases a with
  | elem name bound => exact bind_insert_zero h hl
  | boolElemOfBool name value => exact bind_insert_zero h hl
  | boolElem name value =>
    rw [add] at h
    split at h
    · exact bind_insert_zero h hl
    · split at h
      · exact bind_insert_zero h hl
      · exact bind_insert_zero h hl

/-- **Every element of a new enumerator is at zero.** -/
theorem build_zero {adds : List (Add Name)} (h : build adds = some e) :
    ∀ x ∈ e.objs, x.2.currentValue = 0 := by
  obtain ⟨objs, hobjs, h⟩ := Option.bind_eq_some_iff.mp h
  obtain rfl := Option.some.inj h
  have key : ∀ (adds : List (Add Name)) (l : List (Name × EnumObject)),
      (∀ x ∈ l, x.2.currentValue = 0) → ∀ m, adds.foldlM add l = some m →
      ∀ x ∈ m, x.2.currentValue = 0 := by
    intro adds
    induction adds with
    | nil =>
      intro l hl m hm
      obtain rfl := Option.some.inj hm
      exact hl
    | cons a adds ih =>
      intro l hl m hm
      rw [List.foldlM_cons] at hm
      obtain ⟨l', hl', hm⟩ := Option.bind_eq_some_iff.mp hm
      exact ih l' (add_zero hl' hl) m hm
  exact key adds [] (fun _ h => nomatch h) objs hobjs

/-- **A new enumerator visits every tuple once just when it has two elements or
more**: with a single one `reset_pos` steps in front of the map, so that there is
nothing `begin` could return. -/
theorem visitsAll_iff {adds : List (Add Name)} (h : build adds = some e) :
    e.VisitsAll ↔ 2 ≤ e.objs.length := by
  constructor
  · rintro ⟨n, l, hl, -⟩
    by_contra hlt
    have hbegin := begin_none (Nat.lt_of_not_le hlt)
    rw [observe, hbegin] at hl
    cases hl
  · intro hlen
    obtain ⟨e', hreset, hobjs, hpos⟩ := resetPos_eq hlen
    have hbounds : e'.bounds = e.bounds := by
      unfold bounds
      rw [hobjs]
    have hzero : Radix.rank e'.digits = 0 := by
      have hclear : e'.digits = Radix.clear e'.digits := by
        unfold Radix.clear digits
        rw [List.map_map, hobjs]
        refine List.map_congr_left fun x hx => ?_
        exact Prod.ext (build_zero h x hx) rfl
      rw [hclear, Radix.rank_clear]
    -- The digits' bounds do not change, so the numbers below their product are what there is to
    -- visit.
    have hcount : Radix.count e'.digits = e.bounds.prod := by
      unfold Radix.count
      rw [snd_digits, hbounds]
    obtain ⟨l, hl, hbelow, hranks⟩ := observeFrom_spec (n := e.bounds.prod) hpos
      (by rw [hzero, hcount, Nat.zero_add])
    have hbegin : e.begin = some (e', true) := by
      obtain ⟨x, hx⟩ : ∃ x, e'.objs[e'.forwardPos]? = some x :=
        ⟨_, List.getElem?_eq_getElem (by have := hpos.1; omega)⟩
      have hgood : x.2.goodValue = true := decide_eq_true x.2.value_lt
      unfold begin
      simp only [hreset, hx, hgood, Option.bind_eq_bind, Option.bind_some, Bool.not_true,
        Bool.and_false, Bool.not_false]
    rw [hbounds] at hbelow hranks
    rw [hzero, ← List.range_eq_range'] at hranks
    -- Ranks that run through a range once are every combination, each met once.
    obtain ⟨hnodup, hall⟩ := Radix.walk hbelow hranks
    refine ⟨e.bounds.prod, l, ?_, hnodup, hall⟩
    rw [observe, hbegin]
    exact hl

/-- The fields of a structure of one field that is not a bit-field. -/
theorem visitsAll_oneField : ∃ e : Enumerator String,
    build [.elem "field0" 3, .elem "qualifier0" 2, .boolElemOfBool "packed" true] = some e ∧
      e.VisitsAll := by
  obtain ⟨e, he, hlen⟩ : ∃ e : Enumerator String,
      build [.elem "field0" 3, .elem "qualifier0" 2, .boolElemOfBool "packed" true] = some e ∧
        2 ≤ e.objs.length := ⟨_, rfl, by decide⟩
  exact ⟨e, he, (visitsAll_iff he).mpr hlen⟩

/-- One field that may be a bit-field: the enumerator of these has one element. -/
theorem not_visitsAll_oneBitfield : ∃ e : Enumerator String,
    build [.boolElem "bitfield0" 50] = some e ∧ ¬ e.VisitsAll := by
  refine ⟨_, rfl, ?_⟩
  rintro ⟨n, l, hl, -⟩
  rw [observe, begin_none (by decide)] at hl
  cases hl

end Build

end Enumerator

end CLSmith
