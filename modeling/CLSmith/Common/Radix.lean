import Mathlib.Algebra.BigOperators.Group.List.Basic
import Mathlib.Data.List.Forall2
import Mathlib.Data.List.Range
import Mathlib.Data.List.Nodup
import Mathlib.Tactic.Ring
/-!
# Counting in a mixed radix

Digits with a bound each, the most significant first. The rank of a list of
digits is the number they write; a carry raises it by one, and digits below
their bounds are told apart by it. A walk that starts at zero, goes up by one
and stops at the last rank has been at every tuple below the bounds once.
-/

namespace CLSmith

namespace Common

namespace Radix

/-- How many tuples there are below the bounds of the digits. -/
def count (l : List (ℕ × ℕ)) : ℕ := (l.map Prod.snd).prod

/-- **The number the digits write**; a digit is a value and its bound. The first digit
is the one that counts most. -/
def rank : List (ℕ × ℕ) → ℕ
  | [] => 0
  | d :: l => d.1 * count l + rank l

/-- Every digit is below its bound. -/
def Good (l : List (ℕ × ℕ)) : Prop := ∀ d ∈ l, d.1 < d.2

/-- Every digit is at its last value. -/
def Full (l : List (ℕ × ℕ)) : Prop := ∀ d ∈ l, d.1 + 1 = d.2

/-- The digits back at zero. -/
def clear (l : List (ℕ × ℕ)) : List (ℕ × ℕ) := l.map fun d => (0, d.2)

variable {l m A B : List (ℕ × ℕ)} {v b : ℕ}

theorem count_append : count (A ++ B) = count A * count B := by
  unfold count
  rw [List.map_append, List.prod_append]

theorem count_clear : count (clear l) = count l := by
  unfold count clear
  rw [List.map_map]
  rfl

theorem rank_append : rank (A ++ B) = rank A * count B + rank B := by
  induction A with
  | nil => simp [rank]
  | cons d A ih =>
    rw [List.cons_append, rank, rank, ih, count_append]
    ring

theorem rank_clear : rank (clear l) = 0 := by
  induction l with
  | nil => rfl
  | cons d l ih =>
    have hcons : rank (clear (d :: l)) = 0 * count (clear l) + rank (clear l) := rfl
    rw [hcons, ih, Nat.zero_mul]

theorem rank_full (h : Full l) : rank l + 1 = count l := by
  induction l with
  | nil => rfl
  | cons d l ih =>
    have htail := ih fun e he => h e (List.mem_cons_of_mem _ he)
    have hd := h d List.mem_cons_self
    have hcount : count (d :: l) = d.2 * count l := rfl
    rw [rank, hcount, ← hd, Nat.add_mul]
    omega

theorem rank_lt (h : Good l) : rank l < count l := by
  induction l with
  | nil => exact Nat.one_pos
  | cons d l ih =>
    have htail := ih fun e he => h e (List.mem_cons_of_mem _ he)
    have hd := h d List.mem_cons_self
    have hcount : count (d :: l) = d.2 * count l := rfl
    have hle : (d.1 + 1) * count l ≤ d.2 * count l := Nat.mul_le_mul_right _ hd
    rw [rank, hcount]
    rw [Nat.add_mul] at hle
    omega

/-- **A carry raises the rank by one**: the digits behind the one that goes
up are full and start again. -/
theorem rank_carry (h : Full B) :
    rank (A ++ (v + 1, b) :: clear B) = rank (A ++ (v, b) :: B) + 1 := by
  have hB := rank_full h
  have hcount : count ((v + 1, b) :: clear B) = count ((v, b) :: B) := by
    show b * count (clear B) = b * count B
    rw [count_clear]
  have hstep : (v + 1) * count B = v * count B + count B := by ring
  rw [rank_append, rank_append, hcount, rank, rank, count_clear, rank_clear]
  dsimp only
  omega

/-- **The rank tells the tuples below the bounds apart.** -/
theorem eq_of_rank_eq (hl : Good l) (hm : Good m) (hb : l.map Prod.snd = m.map Prod.snd)
    (h : rank l = rank m) : l = m := by
  induction l generalizing m with
  | nil => exact (List.map_eq_nil_iff.mp hb.symm).symm
  | cons d l ih =>
    cases m with
    | nil => cases hb
    | cons e m =>
      rw [List.map_cons, List.map_cons, List.cons.injEq] at hb
      have hcount : count l = count m := congrArg List.prod hb.2
      have hltl := rank_lt fun x hx => hl x (List.mem_cons_of_mem _ hx)
      have hltm := rank_lt fun x hx => hm x (List.mem_cons_of_mem _ hx)
      rw [rank, rank, ← hcount] at h
      rw [← hcount] at hltm
      have hpos : 0 < count l := by omega
      have hd : d.1 = e.1 := by
        have hdivl : (d.1 * count l + rank l) / count l = d.1 := by
          rw [Nat.mul_comm, Nat.mul_add_div hpos, Nat.div_eq_of_lt hltl, Nat.add_zero]
        have hdivm : (e.1 * count l + rank m) / count l = e.1 := by
          rw [Nat.mul_comm, Nat.mul_add_div hpos, Nat.div_eq_of_lt hltm, Nat.add_zero]
        rw [← hdivl, ← hdivm, h]
      have hrank : rank l = rank m := by
        rw [hd] at h
        omega
      have htail := ih (fun x hx => hl x (List.mem_cons_of_mem _ hx))
        (fun x hx => hm x (List.mem_cons_of_mem _ hx)) hb.2 hrank
      rw [Prod.ext hd hb.1, htail]

/-! ## Walks -/

/-- The tuple is below the bounds. -/
def Below (bounds t : List ℕ) : Prop := List.Forall₂ (· < ·) t bounds

/-- The digits of a tuple. -/
def digits (bounds t : List ℕ) : List (ℕ × ℕ) := t.zip bounds

variable {bounds t : List ℕ}

theorem Below.good (h : Below bounds t) : Good (digits bounds t) := by
  intro d hd
  exact (List.forall₂_iff_zip.mp h).2 hd

theorem Below.snd (h : Below bounds t) : (digits bounds t).map Prod.snd = bounds :=
  List.map_snd_zip (Nat.le_of_eq h.length_eq.symm)

theorem Below.fst (h : Below bounds t) : (digits bounds t).map Prod.fst = t :=
  List.map_fst_zip (Nat.le_of_eq h.length_eq)

theorem Below.count (h : Below bounds t) : count (digits bounds t) = bounds.prod :=
  congrArg List.prod h.snd

/-- **A walk through all ranks has been at every tuple below the bounds**,
and at each of them once. -/
theorem walk {ts : List (List ℕ)} (hbelow : ∀ t ∈ ts, Below bounds t)
    (hrank : (ts.map fun t => rank (digits bounds t)) = List.range bounds.prod) :
    ts.Nodup ∧ ∀ t, t ∈ ts ↔ Below bounds t := by
  constructor
  · have hnd : (ts.map fun t => rank (digits bounds t)).Nodup := by
      rw [hrank]
      exact List.nodup_range
    exact hnd.of_map
  · refine fun t => ⟨hbelow t, fun ht => ?_⟩
    have hlt := rank_lt ht.good
    rw [ht.count] at hlt
    have hmem := List.mem_range.mpr hlt
    rw [← hrank] at hmem
    obtain ⟨u, hu, heq⟩ := List.mem_map.mp hmem
    have hub := hbelow u hu
    have hdig := eq_of_rank_eq hub.good ht.good (hub.snd.trans ht.snd.symm) heq
    rw [← ht.fst, ← hdig, hub.fst]
    exact hu

end Radix

end Common

end CLSmith
