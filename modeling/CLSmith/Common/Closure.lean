import Mathlib.Data.List.Basic
import Mathlib.Data.List.Perm.Basic
/-!
# A closure computed between two lists

The elements of a list that are reached from some of them along a relation,
computed by moving elements from one list to another: a pass moves what the
inside is related to, and passes are made until one moves nothing.
-/

namespace CLSmith

namespace Common

namespace Closure

variable {α : Type} (rel : α → α → Bool)

/-- One pass over what is outside; what was moved takes part at once. -/
def scan : List α → List α → List α × List α
  | inside, [] => (inside, [])
  | inside, x :: outside =>
    if inside.any fun a => rel a x then scan (inside ++ [x]) outside
    else
      let (inside, outside) := scan inside outside
      (inside, x :: outside)

/-- Passes until the inside has not grown, as far as the fuel goes. -/
def grow : ℕ → List α → List α → Option (List α)
  | 0, _, _ => none
  | n + 1, inside, outside =>
    let (inside', outside') := scan rel inside outside
    if inside'.length > inside.length then grow n inside' outside' else some inside'

/-- **What is reached** in a list from where it starts: the least set with the
starts and, with an element, all that it is related to. -/
inductive Reach (start : α → Prop) (l : List α) : α → Prop
  | start {a : α} (ha : a ∈ l) (h : start a) : Reach start l a
  | step {a b : α} (ha : Reach start l a) (hb : b ∈ l) (h : rel a b = true) : Reach start l b

variable {rel} {start : α → Prop} {l inside outside : List α} {n : ℕ}

theorem Reach.mem {a : α} (h : Reach rel start l a) : a ∈ l := by
  cases h with
  | start ha _ => exact ha
  | step _ hb _ => exact hb

/-- A pass loses nothing and makes nothing twice. -/
theorem scan_perm : ((scan rel inside outside).1 ++ (scan rel inside outside).2).Perm
    (inside ++ outside) := by
  induction outside generalizing inside with
  | nil => exact List.Perm.refl _
  | cons x outside ih =>
    rw [scan]
    split
    · have hmove := @ih (inside ++ [x])
      rwa [List.append_assoc, List.singleton_append] at hmove
    · have hkeep := @ih inside
      exact (List.perm_middle.trans (hkeep.cons x)).trans List.perm_middle.symm

/-- The inside only grows at its end. -/
theorem scan_prefix : inside <+: (scan rel inside outside).1 := by
  induction outside generalizing inside with
  | nil => exact List.prefix_rfl
  | cons x outside ih =>
    rw [scan]
    split
    · exact (List.prefix_append inside [x]).trans (@ih (inside ++ [x]))
    · exact ih

/-- What comes inside is reached. -/
theorem scan_reach (hin : ∀ a ∈ inside, Reach rel start l a) (hout : ∀ a ∈ outside, a ∈ l) :
    ∀ a ∈ (scan rel inside outside).1, Reach rel start l a := by
  induction outside generalizing inside with
  | nil => exact hin
  | cons x outside ih =>
    have hrest : ∀ a ∈ outside, a ∈ l := fun a ha => hout a (List.mem_cons_of_mem _ ha)
    rw [scan]
    split
    · next hany =>
      obtain ⟨b, hb, hrel⟩ := List.any_eq_true.mp hany
      have hx : Reach rel start l x := .step (hin b hb) (hout x List.mem_cons_self) hrel
      refine ih (fun a ha => ?_) hrest
      rcases List.mem_append.mp ha with ha | ha
      · exact hin a ha
      · rw [List.mem_singleton.mp ha]
        exact hx
    · exact ih hin hrest

theorem scan_subset : ∀ a ∈ (scan rel inside outside).2, a ∈ outside := by
  induction outside generalizing inside with
  | nil => exact fun a ha => ha
  | cons x outside ih =>
    rw [scan]
    split
    · exact fun a ha => List.mem_cons_of_mem _ (ih a ha)
    · intro a ha
      rcases List.mem_cons.mp ha with rfl | ha
      · exact List.mem_cons_self
      · exact List.mem_cons_of_mem _ (ih a ha)

/-- After a pass that moves nothing, nothing inside is related to anything
outside. -/
theorem scan_fixed (h : ¬ (scan rel inside outside).1.length > inside.length) :
    (scan rel inside outside).1 = inside ∧
      ∀ x ∈ (scan rel inside outside).2, ∀ a ∈ inside, rel a x = false := by
  have hsame : (scan rel inside outside).1 = inside := by
    obtain ⟨new, hnew⟩ : inside <+: (scan rel inside outside).1 := scan_prefix
    have hlen := congrArg List.length hnew
    rw [List.length_append] at hlen
    have hnil : new = [] := List.eq_nil_of_length_eq_zero (by omega)
    rw [← hnew, hnil, List.append_nil]
  refine ⟨hsame, ?_⟩
  clear h
  induction outside with
  | nil => exact fun x hx => nomatch hx
  | cons x outside ih =>
    rw [scan] at hsame ⊢
    split at hsame
    · -- the element moved is at the end of the inside
      exfalso
      have hpre : inside ++ [x] <+: (scan rel (inside ++ [x]) outside).1 := scan_prefix
      have hlen := hpre.length_le
      rw [hsame, List.length_append, List.length_singleton] at hlen
      omega
    · next hany =>
      rw [if_neg hany]
      intro y hy a ha
      rcases List.mem_cons.mp hy with rfl | hy
      · by_contra hrel
        exact hany (List.any_eq_true.mpr ⟨a, ha, by simpa using hrel⟩)
      · exact ih hsame y hy a ha

/-- **The passes end, and then exactly what is reached is inside**: the inside
and what was left over are the list, each element as often as in it. -/
theorem grow_spec (hperm : (inside ++ outside).Perm l)
    (hin : ∀ a ∈ inside, Reach rel start l a) (hout : ∀ a ∈ outside, ¬ start a)
    (hn : outside.length < n) :
    ∃ result rest, grow rel n inside outside = some result ∧ (result ++ rest).Perm l ∧
      (∀ a ∈ result, Reach rel start l a) ∧ ∀ a ∈ rest, ¬ Reach rel start l a := by
  induction n generalizing inside outside with
  | zero => exact absurd hn (Nat.not_lt_zero _)
  | succ n ih =>
    have hmem : ∀ a ∈ outside, a ∈ l := fun a ha =>
      hperm.mem_iff.mp (List.mem_append_right _ ha)
    have hreach : ∀ a ∈ (scan rel inside outside).1, Reach rel start l a := scan_reach hin hmem
    have hscan : ((scan rel inside outside).1 ++ (scan rel inside outside).2).Perm
        (inside ++ outside) := scan_perm
    have hleft : ∀ a ∈ (scan rel inside outside).2, ¬ start a :=
      fun a ha => hout a (scan_subset a ha)
    rw [grow]
    dsimp only
    by_cases hgrow : (scan rel inside outside).1.length > inside.length
    · rw [if_pos hgrow]
      have hlen := hscan.length_eq
      rw [List.length_append, List.length_append] at hlen
      exact ih (hscan.trans hperm) hreach hleft (by omega)
    · rw [if_neg hgrow]
      obtain ⟨hsame, hfixed⟩ := scan_fixed hgrow
      have hall := hscan.trans hperm
      refine ⟨_, _, rfl, hall, hreach, fun a ha h => ?_⟩
      -- no element left over is the first of a chain to be so
      induction h with
      | start _ hs => exact hleft _ ha hs
      | step hb _ hrel hnot =>
        rcases List.mem_append.mp (hall.mem_iff.mpr hb.mem) with hmem | hmem
        · rw [hsame] at hmem
          rw [hfixed _ ha _ hmem] at hrel
          cases hrel
        · exact hnot hmem

end Closure

end Common

end CLSmith
