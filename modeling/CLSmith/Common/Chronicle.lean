import Mathlib.Data.List.Induction
/-!
# Lists in the order they were built

A list where each entry stands in some relation to the entries before it: an
entry is appended if it does, and what comes later does not matter.
-/

namespace CLSmith

namespace Common

variable {α : Type*} (R : List α → α → Prop)

/-- **Each entry is right after those before it.** What an entry needs may depend on
the whole list in front of it, but on nothing behind. -/
def Chronicle (l : List α) : Prop := ∀ pre a post, l = pre ++ a :: post → R pre a

variable {R} {R' : List α → α → Prop} {l : List α} {a : α}

namespace Chronicle

theorem nil : Chronicle R [] := fun _ _ _ h => absurd h (by simp)

theorem snoc_iff : Chronicle R (l ++ [a]) ↔ Chronicle R l ∧ R l a := by
  constructor
  · intro h
    exact ⟨fun pre b post heq => h pre b (post ++ [a]) (by simp [heq]), h l a [] rfl⟩
  · rintro ⟨h, ha⟩ pre b post heq
    rcases List.eq_nil_or_concat post with rfl | ⟨post, c, rfl⟩
    · obtain ⟨rfl, hlast⟩ := List.append_inj' heq rfl
      obtain rfl := List.singleton_inj.mp hlast
      exact ha
    · have hsplit : l ++ [a] = (pre ++ b :: post) ++ [c] := by simpa using heq
      exact h pre b post (List.append_inj' hsplit rfl).1

theorem mono (h : Chronicle R l) (hR : ∀ pre a, R pre a → R' pre a) : Chronicle R' l :=
  fun pre a post heq => hR pre a (h pre a post heq)

/-- An entry, and those before it. -/
theorem exists_before (h : Chronicle R l) (ha : a ∈ l) : ∃ pre, (∀ b ∈ pre, b ∈ l) ∧ R pre a := by
  obtain ⟨pre, post, rfl⟩ := List.append_of_mem ha
  exact ⟨pre, fun b hb => List.mem_append_left _ hb, h pre a post rfl⟩

/-- Where the relation is to each entry before. -/
theorem pairwise {Q : α → α → Prop} (h : Chronicle (fun pre a => ∀ b ∈ pre, Q b a) l) :
    l.Pairwise Q := by
  induction l using List.reverseRecOn with
  | nil => exact List.Pairwise.nil
  | append_singleton l a ih =>
    obtain ⟨hl, ha⟩ := snoc_iff.mp h
    rw [List.pairwise_append]
    refine ⟨ih hl, List.pairwise_singleton _ _, fun b hb c hc => ?_⟩
    rw [List.mem_singleton.mp hc]
    exact ha b hb

end Chronicle

end Common

end CLSmith
