import CLSmith.Common.CInt
import Mathlib.Data.List.Nodup
import Mathlib.Logic.Relation
/-!
# The elements of a special value

`StatementAtomicResult::GenSpecialVals` adds every element of a vector array
to the section's special value. Its three loops step an odometer, from the
greatest index down; a read or a write outside `curr_index` or `accesses` is
what ends it.
-/

namespace CLSmith

namespace Atomic

namespace SpecialVals

open Common

/-- The loops the odometer is in: the one over the last digit, or the one that
carries. -/
inductive Point
  | descend | carry
deriving DecidableEq

/-- How the loops end: at the `break`, or in what the language leaves
undefined. -/
inductive Halt
  | finished | outOfBounds | overflow
deriving DecidableEq

/-- **The state of the loops**, with the indices `itemize` was given. The inner loop
counts the current index down, the outer one carries to the digit before; `point`
tells in which of the two the run is. -/
structure Odometer where
  accesses : List ℤ
  currIndex : List ℤ
  index : ℤ
  point : Point
  visited : List (List ℤ)
deriving DecidableEq

/-- `xs[i]`. -/
def read (xs : List ℤ) (i : ℤ) : Except Halt ℤ :=
  if i < 0 then .error .outOfBounds
  else match xs[i.toNat]? with
    | some v => .ok v
    | none => .error .outOfBounds

/-- `xs[i] = v`. -/
def write (xs : List ℤ) (i v : ℤ) : Except Halt (List ℤ) :=
  if i < 0 ∨ xs.length ≤ i.toNat then .error .outOfBounds else .ok (xs.set i.toNat v)

/-- `v--`, of an `int`. -/
def decrement (v : ℤ) : Except Halt ℤ :=
  if IntTy.int.InRange (v - 1) then .ok (v - 1) else .error .overflow

/-- **A round** of the loop the odometer is in. Reading in front of the first digit,
an `int` that does not fit and the end of the loops are the ways it can stop. -/
def step (o : Odometer) : Except Halt Odometer :=
  match o.point with
  | .descend => do
    let c ← read o.currIndex o.index
    if 0 ≤ c then
      let c' ← decrement c
      let currIndex ← write o.currIndex o.index c'
      return { o with currIndex := currIndex, visited := o.visited ++ [o.currIndex] }
    else return { o with point := .carry }
  | .carry => do
    let a ← read o.accesses o.index
    let currIndex ← write o.currIndex o.index (IntTy.int.wrap a)
    let index := o.index - 1
    let c ← read currIndex index
    if c = 0 then return { o with currIndex := currIndex, index := index }
    else if index < 0 then throw .finished
    else do
      let c' ← decrement c
      let currIndex ← write currIndex index c'
      return { o with currIndex := currIndex, index := currIndex.length - 1, point := .descend }

/-- The loops, for so many rounds: what was visited, and how they ended. -/
def run : ℕ → Odometer → Option (List (List ℤ) × Halt)
  | 0, _ => none
  | n + 1, o =>
    match step o with
    | .ok o' => run n o'
    | .error h => some (o.visited, h)

/-- The odometer before the loops; `accesses` holds `unsigned int`s. -/
def start (sizes : List ℕ) : Odometer where
  accesses := sizes.map fun (s : ℕ) => IntTy.unsigned.wrap (s - 1)
  currIndex := sizes.map fun (s : ℕ) => IntTy.int.wrap (IntTy.unsigned.wrap (s - 1))
  index := sizes.length - 1
  point := .descend
  visited := []

/-- The index is one of an array of these sizes. -/
def Within (ds : List ℤ) (sizes : List ℕ) : Prop :=
  List.Forall₂ (fun (d : ℤ) (s : ℕ) => 0 ≤ d ∧ d < s) ds sizes

/-- Every index of an array, and none twice. -/
def Complete (visited : List (List ℤ)) (sizes : List ℕ) : Prop :=
  visited.Nodup ∧ ∀ ds, ds ∈ visited ↔ Within ds sizes

/-- **The loops enumerate**: they end, with every index visited once, and
without an access that is out of bounds. -/
def Enumerates (sizes : List ℕ) : Prop :=
  ∃ n visited, run n (start sizes) = some (visited, .finished) ∧ Complete visited sizes

/-! ## The indices in order -/

/-- From `a` down to zero. -/
def down : ℕ → List ℤ
  | 0 => [0]
  | a + 1 => ((a + 1 : ℕ) : ℤ) :: down a

theorem mem_down {a : ℕ} {d : ℤ} : d ∈ down a ↔ 0 ≤ d ∧ d ≤ a := by
  induction a with
  | zero =>
    simp only [down, List.mem_singleton]
    omega
  | succ a ih =>
    simp only [down, List.mem_cons, ih]
    omega

theorem nodup_down (a : ℕ) : (down a).Nodup := by
  induction a with
  | zero => simp [down]
  | succ a ih =>
    refine List.nodup_cons.mpr ⟨?_, ih⟩
    rw [mem_down]
    omega

/-- The indices up to the given digits, in the order the odometer takes. -/
def below : List ℕ → List (List ℤ)
  | [] => [[]]
  | a :: as => (down a).flatMap fun d => (below as).map (d :: ·)

theorem mem_below {as : List ℕ} {ds : List ℤ} :
    ds ∈ below as ↔ List.Forall₂ (fun (d : ℤ) (a : ℕ) => 0 ≤ d ∧ d ≤ a) ds as := by
  induction as generalizing ds with
  | nil => simp [below]
  | cons a as ih =>
    simp only [below, List.mem_flatMap, List.mem_map, mem_down, List.forall₂_cons_right_iff, ih]
    constructor
    · rintro ⟨d, hd, ds, hds, rfl⟩
      exact ⟨d, ds, hd, hds, rfl⟩
    · rintro ⟨d, ds, hd, hds, rfl⟩
      exact ⟨d, hd, ds, hds, rfl⟩

theorem nodup_below (as : List ℕ) : (below as).Nodup := by
  induction as with
  | nil => simp [below]
  | cons a as ih =>
    refine List.nodup_flatMap.mpr ⟨fun d _ => ih.map fun x y hxy => (List.cons.inj hxy).2, ?_⟩
    refine (nodup_down a).imp fun {d e} hne => ?_
    intro ds hd he
    obtain ⟨xs, -, rfl⟩ := List.mem_map.mp hd
    obtain ⟨ys, -, hys⟩ := List.mem_map.mp he
    exact hne (List.cons.inj hys).1.symm

/-! ## Rounds -/

/-- Round after round. -/
abbrev Steps : Odometer → Odometer → Prop :=
  Relation.ReflTransGen fun o o' => step o = .ok o'

theorem Steps.run {o o' : Odometer} (h : Steps o o') :
    ∃ k, ∀ n, run (n + k) o = run n o' := by
  induction h using Relation.ReflTransGen.head_induction_on with
  | refl => exact ⟨0, fun n => rfl⟩
  | head hstep _ ih =>
    obtain ⟨k, hk⟩ := ih
    refine ⟨k + 1, fun n => ?_⟩
    rw [← Nat.add_assoc, SpecialVals.run, hstep]
    exact hk n

/-- Digits as the `int`s they are stored in. -/
def ints (as : List ℕ) : List ℤ := List.map (Nat.cast : ℕ → ℤ) as

@[simp] theorem length_ints (as : List ℕ) : (ints as).length = as.length := by
  simp [ints]

theorem read_append (xs : List ℤ) (v : ℤ) (ys : List ℤ) :
    read (xs ++ v :: ys) xs.length = .ok v := by
  unfold read
  rw [if_neg (by omega)]
  simp

theorem write_append (xs : List ℤ) (v : ℤ) (ys : List ℤ) (v' : ℤ) :
    write (xs ++ v :: ys) xs.length v' = .ok (xs ++ v' :: ys) := by
  unfold write
  rw [if_neg (by simp)]
  simp

theorem inRange_pred {d : ℕ} (h : IntTy.int.InRange ((d + 1 : ℕ) : ℤ)) :
    IntTy.int.InRange (d : ℤ) := by
  have hint : IntTy.int.minVal = -2147483648 := by decide
  unfold IntTy.InRange at h ⊢
  omega

theorem decrement_nat (a : ℕ) (h : IntTy.int.InRange a) : decrement a = .ok ((a : ℤ) - 1) := by
  have hint : IntTy.int.minVal = -2147483648 ∧ IntTy.int.maxVal = 2147483647 := by decide
  unfold IntTy.InRange at h
  unfold decrement
  exact if_pos ⟨by omega, by omega⟩

section Rounds

variable {u p : List ℤ} {v : List (List ℤ)}

/-- A round of the loop over the last digit visits one index. -/
theorem step_descend (a : ℕ) (h : IntTy.int.InRange a) :
    step ⟨u, p ++ [(a : ℤ)], p.length, .descend, v⟩ =
      .ok ⟨u, p ++ [(a : ℤ) - 1], p.length, .descend, v ++ [p ++ [(a : ℤ)]]⟩ := by
  simp only [step, read_append, decrement_nat a h, write_append, bind, Except.bind, pure,
    Except.pure, Int.natCast_nonneg, if_true]

theorem step_left : step ⟨u, p ++ [-1], p.length, .descend, v⟩ =
    .ok ⟨u, p ++ [-1], p.length, .carry, v⟩ := by
  simp only [step, read_append, bind, Except.bind, pure, Except.pure]
  rfl

/-- The loop over the last digit. -/
theorem descend_steps (a : ℕ) (h : IntTy.int.InRange a) :
    Steps ⟨u, p ++ [(a : ℤ)], p.length, .descend, v⟩
      ⟨u, p ++ [-1], p.length, .carry, v ++ (down a).map fun d => p ++ [d]⟩ := by
  induction a generalizing v with
  | zero =>
    refine .head (step_descend 0 h) (.single ?_)
    exact step_left
  | succ a ih =>
    have ha := inRange_pred h
    refine .head (step_descend (a + 1) h) ?_
    have hrest := ih (v := v ++ [p ++ [((a + 1 : ℕ) : ℤ)]]) ha
    rw [List.append_assoc] at hrest
    rwa [show ((a + 1 : ℕ) : ℤ) - 1 = a by omega]

variable {A B : List ℕ} {m : ℕ} {r D : List ℤ} {x : ℤ}

theorem read_ints (A : List ℕ) (m : ℕ) (B : List ℕ) :
    read (ints (A ++ m :: B)) A.length = .ok (m : ℤ) := by
  have h := read_append (ints A) m (ints B)
  rw [length_ints] at h
  rwa [ints, List.map_append]

/-- The round that resets the digit behind `c`. -/
theorem step_carry (hA : A.length = r.length + 1) (hm : IntTy.int.InRange m) (c : ℤ) :
    step ⟨ints (A ++ m :: B), r ++ c :: x :: D, r.length + 1, .carry, v⟩ =
      if c = 0 then .ok ⟨ints (A ++ m :: B), r ++ 0 :: (m : ℤ) :: D, r.length, .carry, v⟩
      else (decrement c).map fun c' => ⟨ints (A ++ m :: B), r ++ c' :: (m : ℤ) :: D,
        (r ++ c :: (m : ℤ) :: D).length - 1, .descend, v⟩ := by
  have hread := read_ints A m B
  have hidx : (A.length : ℤ) = r.length + 1 := by omega
  have hidx' : ((r ++ [c]).length : ℤ) = r.length + 1 := by simp
  have hwrite := write_append (r ++ [c]) x D (IntTy.int.wrap m)
  rw [hidx] at hread
  rw [hidx', List.append_assoc, List.append_assoc, IntTy.wrap_of_inRange hm] at hwrite
  simp only [List.cons_append, List.nil_append] at hwrite
  simp only [step, hread, bind, Except.bind, IntTy.wrap_of_inRange hm, hwrite,
    Int.add_sub_cancel, read_append, pure, Except.pure]
  by_cases hc : c = 0
  · rw [if_pos hc, if_pos hc, hc]
  · rw [if_neg hc, if_neg hc, if_neg (by omega)]
    cases decrement c with
    | error h => rfl
    | ok c' =>
      simp only [write_append, Except.map]
      simp

/-- **The carry runs off the front**: the digit before the first is read. -/
theorem step_carry_front :
    step ⟨ints (m :: B), x :: D, 0, .carry, v⟩ = .error .outOfBounds := by
  have hread := read_ints [] m B
  have hwrite := write_append [] x D (IntTy.int.wrap m)
  simp only [List.nil_append, List.length_nil, Nat.cast_zero] at hread hwrite
  simp only [step, hread, hwrite, bind, Except.bind]
  rfl

end Rounds

/-! ## Sweeps -/

section Sweeps

variable {v : List (List ℤ)}

/-- A run of zeros is reset, up to the digit before it. -/
theorem rollback {P : List ℕ} {q : List ℤ} (hP : P.length = q.length) (ms : List ℕ) :
    ∀ (m : ℕ) (B : List ℕ) (x : ℤ), (∀ a ∈ ms ++ m :: B, IntTy.int.InRange (a : ℤ)) →
      ∃ x', Steps ⟨ints (P ++ (ms ++ m :: B)), q ++ (List.replicate ms.length 0 ++ x :: ints B),
          q.length + ms.length, .carry, v⟩
        ⟨ints (P ++ (ms ++ m :: B)), q ++ x' :: ints (ms ++ m :: B).tail, q.length, .carry,
          v⟩ := by
  induction ms using List.reverseRecOn with
  | nil =>
    intro m B x _
    exact ⟨x, by simpa using Relation.ReflTransGen.refl⟩
  | append_singleton ms m' ih =>
    intro m B x hr
    have hlen : (P ++ (ms ++ [m'])).length =
        (q ++ List.replicate ms.length (0 : ℤ)).length + 1 := by
      simp only [List.length_append, List.length_replicate, List.length_singleton]
      omega
    have hstep := step_carry (v := v) (B := B) (m := m) (D := ints B) (x := x) hlen
      (hr m (by simp)) 0
    rw [if_pos rfl] at hstep
    obtain ⟨x', hx'⟩ := ih m' (m :: B) 0 (by simpa using hr)
    have hzeros : List.replicate (ms ++ [m']).length (0 : ℤ) ++ x :: ints B =
        List.replicate ms.length 0 ++ 0 :: x :: ints B := by
      rw [List.length_append, List.length_singleton, List.replicate_succ', List.append_assoc]
      rfl
    have hone : Steps ⟨ints (P ++ (ms ++ [m'] ++ m :: B)),
        q ++ (List.replicate (ms ++ [m']).length 0 ++ x :: ints B),
        q.length + (ms ++ [m']).length, .carry, v⟩
      ⟨ints (P ++ (ms ++ m' :: m :: B)),
        q ++ (List.replicate ms.length 0 ++ 0 :: ints (m :: B)), q.length + ms.length, .carry,
        v⟩ := by
      rw [hzeros]
      refine .single ?_
      simpa [ints, Int.add_assoc] using hstep
    have hlist : ms ++ [m'] ++ m :: B = ms ++ m' :: m :: B := by simp
    rw [hlist] at hone ⊢
    exact ⟨x', hone.trans hx'⟩

/-- With the digits behind it spent, a digit goes down by one, and they are
reset. -/
theorem lower_digit {a b d : ℕ} {bs P : List ℕ} {q : List ℤ} (hP : P.length = q.length)
    (hr : ∀ c ∈ b :: bs, IntTy.int.InRange (c : ℤ))
    (hd : IntTy.int.InRange ((d + 1 : ℕ) : ℤ)) :
    Steps ⟨ints (P ++ a :: b :: bs), q ++ ((d + 1 : ℕ) : ℤ) :: (List.replicate bs.length 0 ++ [-1]),
        q.length + (b :: bs).length, .carry, v⟩
      ⟨ints (P ++ a :: b :: bs), q ++ (d : ℤ) :: ints (b :: bs), q.length + (b :: bs).length,
        .descend, v⟩ := by
  obtain ⟨ms, m, hms⟩ : ∃ ms m, b :: bs = ms ++ [m] :=
    ⟨_, _, (List.dropLast_append_getLast (List.cons_ne_nil b bs)).symm⟩
  have hlen : ms.length = bs.length := by
    have := congrArg List.length hms
    simp only [List.length_cons, List.length_append, List.length_nil] at this
    omega
  have hacc : P ++ [a] ++ b :: bs = P ++ a :: b :: bs := by simp
  have happ : ∀ ys : List ℤ, q ++ [((d + 1 : ℕ) : ℤ)] ++ ys = q ++ ((d + 1 : ℕ) : ℤ) :: ys := by
    simp
  have hidx : ((q ++ [((d + 1 : ℕ) : ℤ)]).length : ℤ) = q.length + 1 := by simp
  have hidx' : (q.length : ℤ) + 1 + bs.length = q.length + (b :: bs).length := by
    rw [List.length_cons]
    omega
  have hend : ((q ++ ((d + 1 : ℕ) : ℤ) :: (b : ℤ) :: ints bs).length : ℤ) - 1 =
      q.length + (b :: bs).length := by
    simp only [List.length_append, List.length_cons, length_ints]
    omega
  -- the zeros and the last digit are reset
  obtain ⟨x', hback⟩ := rollback (v := v) (P := P ++ [a]) (q := q ++ [((d + 1 : ℕ) : ℤ)])
    (by simp [hP]) ms m [] (-1) (by rw [← hms]; exact hr)
  rw [← hms, hlen, hacc, happ, happ, hidx, hidx'] at hback
  -- the digit itself stops the carry
  have hcarry := step_carry (v := v) (A := P ++ [a]) (B := bs) (m := b) (r := q)
    (D := ints bs) (x := x') (by simp [hP]) (hr b (by simp)) ((d + 1 : ℕ) : ℤ)
  rw [if_neg (by omega), decrement_nat _ hd, hacc, hend] at hcarry
  refine Relation.ReflTransGen.tail hback ?_
  rw [show ((d + 1 : ℕ) : ℤ) - 1 = d by omega] at hcarry
  exact hcarry

/-- From the greatest digits behind `q`, every index with the digits `q` is
visited, and the digits behind `q` are spent. -/
theorem sweep (as : List ℕ) : ∀ (a : ℕ) (P : List ℕ) (q : List ℤ) (v : List (List ℤ)),
    P.length = q.length → (∀ b ∈ a :: as, IntTy.int.InRange (b : ℤ)) →
      Steps ⟨ints (P ++ a :: as), q ++ ints (a :: as), q.length + as.length, .descend, v⟩
        ⟨ints (P ++ a :: as), q ++ (List.replicate as.length 0 ++ [-1]), q.length + as.length,
          .carry, v ++ (below (a :: as)).map (q ++ ·)⟩ := by
  induction as with
  | nil =>
    intro a P q v _ hr
    have h := descend_steps (u := ints (P ++ [a])) (p := q) (v := v) a (hr a (by simp))
    have hdown : below [a] = (down a).map fun d => [d] := List.map_eq_flatMap.symm
    have hbelow : (below [a]).map (q ++ ·) = (down a).map fun d => q ++ [d] := by
      rw [hdown, List.map_map]
      rfl
    rw [hbelow]
    simpa [ints] using h
  | cons b bs ih =>
    intro a P q v hP hr
    have hrest : ∀ c ∈ b :: bs, IntTy.int.InRange (c : ℤ) := fun c hc =>
      hr c (List.mem_cons_of_mem a hc)
    -- a digit fixed, the ones behind it are swept
    have hfixed : ∀ (d : ℕ) (v : List (List ℤ)),
        Steps ⟨ints (P ++ a :: b :: bs), q ++ (d : ℤ) :: ints (b :: bs),
            q.length + (b :: bs).length, .descend, v⟩
          ⟨ints (P ++ a :: b :: bs), q ++ (d : ℤ) :: (List.replicate bs.length 0 ++ [-1]),
            q.length + (b :: bs).length, .carry,
            v ++ (below (b :: bs)).map (q ++ (d : ℤ) :: ·)⟩ := by
      intro d v
      have h := ih b (P ++ [a]) (q ++ [(d : ℤ)]) v (by simp [hP]) hrest
      have hidx : ((q ++ [(d : ℤ)]).length : ℤ) + bs.length = q.length + (b :: bs).length := by
        simp only [List.length_append, List.length_cons, List.length_nil]
        omega
      rw [hidx] at h
      simpa using h
    have key : ∀ (d : ℕ) (v : List (List ℤ)), IntTy.int.InRange (d : ℤ) →
        Steps ⟨ints (P ++ a :: b :: bs), q ++ (d : ℤ) :: ints (b :: bs),
            q.length + (b :: bs).length, .descend, v⟩
          ⟨ints (P ++ a :: b :: bs), q ++ 0 :: (List.replicate bs.length 0 ++ [-1]),
            q.length + (b :: bs).length, .carry,
            v ++ (down d).flatMap fun e => (below (b :: bs)).map (q ++ e :: ·)⟩ := by
      intro d
      induction d with
      | zero =>
        intro v _
        simpa [down] using hfixed 0 v
      | succ d ihd =>
        intro v hd
        refine (hfixed (d + 1) v).trans ?_
        refine (lower_digit hP hrest hd).trans ?_
        have hvis : v ++ (below (b :: bs)).map (q ++ ((d + 1 : ℕ) : ℤ) :: ·) ++
            (down d).flatMap (fun e => (below (b :: bs)).map (q ++ e :: ·)) =
            v ++ (down (d + 1)).flatMap fun e => (below (b :: bs)).map (q ++ e :: ·) := by
          rw [down, List.flatMap_cons, List.append_assoc]
        rw [← hvis]
        exact ihd _ (inRange_pred hd)
    have hbelow : (below (a :: b :: bs)).map (q ++ ·) =
        (down a).flatMap fun e => (below (b :: bs)).map (q ++ e :: ·) := by
      rw [below, List.map_flatMap]
      simp only [List.map_map]
      rfl
    rw [hbelow]
    exact key a v (hr a (by simp))

end Sweeps

/-! ## The whole loop -/

section Finished

variable {α β : Type}

theorem bind_ne_finished {x : Except Halt α} {f : α → Except Halt β} (hx : x ≠ .error .finished)
    (hf : ∀ a, x = .ok a → f a ≠ .error .finished) : (x >>= f) ≠ .error .finished := by
  cases x with
  | error h => exact fun he => hx (congrArg _ (Except.error.inj he))
  | ok a => exact hf a rfl

theorem read_ne_finished (xs : List ℤ) (i : ℤ) : read xs i ≠ .error .finished := by
  unfold read
  split
  · simp
  · split <;> simp

theorem write_ne_finished (xs : List ℤ) (i v : ℤ) : write xs i v ≠ .error .finished := by
  unfold write
  split <;> simp

theorem decrement_ne_finished (v : ℤ) : decrement v ≠ .error .finished := by
  unfold decrement
  split <;> simp

/-- **The `break` is never taken**: it stands behind a read of the digit at
the index it tests. -/
theorem step_ne_finished (o : Odometer) : step o ≠ .error .finished := by
  unfold step
  cases o.point with
  | descend =>
    refine bind_ne_finished (read_ne_finished _ _) fun c _ => ?_
    split
    · refine bind_ne_finished (decrement_ne_finished c) fun c' _ => ?_
      refine bind_ne_finished (write_ne_finished _ _ _) fun curr _ => ?_
      exact nofun
    · exact nofun
  | carry =>
    refine bind_ne_finished (read_ne_finished _ _) fun a _ => ?_
    refine bind_ne_finished (write_ne_finished _ _ _) fun curr _ => ?_
    refine bind_ne_finished (read_ne_finished _ _) fun c hc => ?_
    split
    · exact nofun
    · split
      · rename_i hneg
        unfold read at hc
        rw [if_pos hneg] at hc
        cases hc
      · refine bind_ne_finished (decrement_ne_finished c) fun c' _ => ?_
        refine bind_ne_finished (write_ne_finished _ _ _) fun curr' _ => ?_
        exact nofun

theorem run_ne_finished {n : ℕ} {o : Odometer} {visited : List (List ℤ)} :
    run n o ≠ some (visited, .finished) := by
  induction n generalizing o with
  | zero => exact nofun
  | succ n ih =>
    rw [run]
    cases hstep : step o with
    | ok o' => exact ih
    | error h =>
      intro he
      rw [(Prod.mk.inj (Option.some.inj he)).2] at hstep
      exact step_ne_finished o hstep

end Finished

theorem start_eq (as : List ℕ) (h : ∀ a ∈ as, IntTy.int.InRange (a : ℤ)) :
    start (as.map (· + 1)) = ⟨ints as, ints as, as.length - 1, .descend, []⟩ := by
  have huns : ∀ a ∈ as, IntTy.unsigned.wrap (((a + 1 : ℕ) : ℤ) - 1) = a := by
    intro a ha
    rw [Nat.cast_succ, Int.add_sub_cancel]
    refine IntTy.wrap_of_inRange ?_
    have hr := h a ha
    have hint : IntTy.int.maxVal ≤ IntTy.unsigned.maxVal ∧ IntTy.unsigned.minVal = 0 := by decide
    exact ⟨by omega, hr.2.trans hint.1⟩
  unfold start ints
  rw [List.map_map, List.map_map, List.length_map]
  congr 1
  · exact List.map_congr_left huns
  · refine List.map_congr_left fun a ha => ?_
    show IntTy.int.wrap (IntTy.unsigned.wrap _) = _
    rw [huns a ha, IntTy.wrap_of_inRange (h a ha)]

/-- **Every index is visited once**, and then the digit before the first is
read. -/
theorem run_start {sizes : List ℕ} (hne : sizes ≠ [])
    (hs : ∀ s ∈ sizes, 1 ≤ s ∧ s ≤ 2 ^ 31) :
    ∃ n visited, run n (start sizes) = some (visited, .outOfBounds) ∧
      Complete visited sizes := by
  obtain ⟨as, rfl⟩ : ∃ as : List ℕ, sizes = as.map (· + 1) := by
    refine ⟨sizes.map (· - 1), ?_⟩
    rw [List.map_map]
    refine (List.map_id' sizes).symm.trans (List.map_congr_left fun s h => ?_)
    have := hs s h
    show s = s - 1 + 1
    omega
  have hr : ∀ a ∈ as, IntTy.int.InRange (a : ℤ) := by
    intro a ha
    have hint : IntTy.int.minVal = -2147483648 ∧ IntTy.int.maxVal = 2147483647 := by decide
    have := hs (a + 1) (List.mem_map_of_mem ha)
    exact ⟨by omega, by omega⟩
  have hcomplete : Complete (below as) (as.map (· + 1)) := by
    refine ⟨nodup_below as, fun ds => ?_⟩
    rw [mem_below, Within, List.forall₂_map_right_iff]
    have hlt : ∀ (d : ℤ) (a : ℕ), (0 ≤ d ∧ d ≤ a) ↔ (0 ≤ d ∧ d < (a + 1 : ℕ)) := by
      intro d a
      omega
    simp only [hlt]
  cases as with
  | nil => exact absurd rfl hne
  | cons a as =>
    -- down through all indices, and then all carries from the last digit to the first
    have hsweep := sweep as a [] [] [] rfl hr
    obtain ⟨ms, m, hms⟩ : ∃ ms m, a :: as = ms ++ [m] :=
      ⟨_, _, (List.dropLast_append_getLast (List.cons_ne_nil a as)).symm⟩
    have hlen : ms.length = as.length := by
      have := congrArg List.length hms
      simp only [List.length_cons, List.length_append, List.length_nil] at this
      omega
    obtain ⟨x', hback⟩ := rollback (v := below (a :: as)) (P := []) (q := []) rfl ms m [] (-1)
      (by rw [← hms]; exact hr)
    rw [← hms, hlen] at hback
    have hvis : (below (a :: as)).map (([] : List ℤ) ++ ·) = below (a :: as) := List.map_id' _
    rw [hvis] at hsweep
    obtain ⟨k, hk⟩ := Steps.run (hsweep.trans hback)
    refine ⟨1 + k, below (a :: as), ?_, hcomplete⟩
    rw [start_eq _ hr]
    have hidx : (((a :: as).length : ℕ) : ℤ) - 1 =
      ((([] : List ℤ).length : ℕ) : ℤ) + as.length := by
      simp
    rw [hidx]
    refine (hk 1).trans ?_
    rw [run]
    have hfront := step_carry_front (v := below (a :: as)) (B := as) (m := a) (D := ints as)
      (x := x')
    exact congrArg (fun r => match r with
      | .ok o' => run 0 o'
      | .error h => some (below (a :: as), h)) hfront

/-- **The loops never end in bounds**: whatever the sizes, there is no run in which
they do. With sizes an `int` can hold, all else is as it should be: every index was
visited once when the digit in front of the first is read. -/
theorem not_enumerates {sizes : List ℕ} (hne : sizes ≠ []) (hpos : ∀ s ∈ sizes, 1 ≤ s) :
    ¬ Enumerates sizes ∧ ((∀ s ∈ sizes, s ≤ 2 ^ 31) →
      ∃ n visited, run n (start sizes) = some (visited, .outOfBounds) ∧
        Complete visited sizes) := by
  refine ⟨?_, fun hs => run_start hne fun s h => ⟨hpos s h, hs s h⟩⟩
  rintro ⟨n, visited, hrun, -⟩
  exact run_ne_finished hrun

theorem not_enumerates_two : ¬ Enumerates [2, 3] := by
  have hne : [2, 3] ≠ ([] : List ℕ) := List.cons_ne_nil 2 [3]
  exact (not_enumerates hne (by decide)).1

/-- An array of one element: its digit is visited, then the one before it read. -/
theorem not_enumerates_one : ¬ Enumerates [1] := by
  rintro ⟨n, visited, hrun, -⟩
  exact run_ne_finished hrun

example : run 3 (start [1]) = some ([[0]], .outOfBounds) := by decide

end SpecialVals

end Atomic

end CLSmith
