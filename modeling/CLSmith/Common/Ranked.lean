import Mathlib.Data.List.Chain
import Mathlib.Data.Set.Finite.Basic
import Mathlib.Data.Set.Finite.Lattice
import Mathlib.Logic.Relation
/-!
# Graphs that grow towards what is finished

A graph whose edges all lead to finished nodes, and where the edges of a node
are there before it is finished itself. However such a graph grows, it has no
cycle: the order in which the nodes are finished is a rank.
-/

namespace CLSmith

namespace Common

variable {α : Type*}

/-- **A rank on the finished nodes**, which every edge goes down. A node that is not
finished may have edges only to finished ones, so it can be given a rank above them
when it is. -/
def Ranked (E : α → α → Prop) (done : α → Prop) : Prop :=
  ∃ rank : α → ℕ, ∀ a b, E a b → done b ∧ (done a → rank b < rank a)

namespace Ranked

variable {E E' : α → α → Prop} {done done' : α → Prop} {a b : α} {l : List α}

theorem of_empty (h : ∀ a b, ¬ E a b) : Ranked E done :=
  ⟨fun _ => 0, fun a b hab => absurd hab (h a b)⟩

/-- An edge may be drawn from an open node to a finished one, and any edge dropped. -/
theorem mono (h : Ranked E done) (hdone : ∀ a, done' a ↔ done a)
    (hE : ∀ a b, E' a b → E a b ∨ ¬ done a ∧ done b) : Ranked E' done' := by
  obtain ⟨rank, hrank⟩ := h
  refine ⟨rank, fun a b hab => ?_⟩
  rw [hdone a, hdone b]
  rcases hE a b hab with hold | ⟨hopen, hfinished⟩
  · exact hrank a b hold
  · exact ⟨hfinished, fun ha => absurd ha hopen⟩

/-- A node that is finished goes above what its edges lead to. -/
theorem finish (h : Ranked E done) (ha : ¬ done a) (hfin : {b | E a b}.Finite) :
    Ranked E fun x => done x ∨ x = a := by
  classical
  obtain ⟨rank, hrank⟩ := h
  obtain ⟨n, hn⟩ := (hfin.image rank).bddAbove
  refine ⟨Function.update rank a (n + 1), fun x b hxb => ?_⟩
  have hb : done b := (hrank x b hxb).1
  have hba : b ≠ a := by
    rintro rfl
    exact ha hb
  rw [Function.update_of_ne hba]
  refine ⟨.inl hb, fun hx => ?_⟩
  by_cases hxa : x = a
  · subst hxa
    rw [Function.update_self]
    exact Nat.lt_succ_of_le (hn ⟨b, hxb, rfl⟩)
  · rw [Function.update_of_ne hxa]
    exact (hrank x b hxb).2 (hx.resolve_right hxa)

theorem done_of_edge (h : Ranked E done) (hab : E a b) : done b := by
  obtain ⟨rank, hrank⟩ := h
  exact (hrank a b hab).1

/-- **No cycle.** -/
theorem acyclic (h : Ranked E done) : ¬ Relation.TransGen E a a := by
  obtain ⟨rank, hrank⟩ := h
  have key : ∀ b, Relation.TransGen E a b → done b ∧ (done a → rank b < rank a) := by
    intro b hab
    induction hab with
    | single hab => exact hrank _ _ hab
    | tail _ hbc ih =>
      have hlast := hrank _ _ hbc
      exact ⟨hlast.1, fun ha => (hlast.2 ih.1).trans (ih.2 ha)⟩
  intro hcycle
  have hself := key a hcycle
  exact Nat.lt_irrefl _ (hself.2 hself.1)

/-- A path meets no node twice. -/
theorem nodup_of_isChain (h : Ranked E done) (hl : l.IsChain E) : l.Nodup := by
  have hpath : l.IsChain (Relation.TransGen E) := hl.imp fun _ _ => .single
  refine hpath.pairwise.imp fun {x y} hxy => ?_
  rintro rfl
  exact h.acyclic hxy

end Ranked

end Common

end CLSmith
