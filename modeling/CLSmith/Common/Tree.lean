import Mathlib.Data.List.Basic
import Mathlib.Data.List.Nodup
import Mathlib.Algebra.Order.Group.Multiset
import Mathlib.Tactic.Abel
/-!
# Lists of statements

Structured code as the list of its statements: plain ones, ifs with two
blocks and loops with one. Statements and blocks have names; the lists of
the blocks are part of the statement. One recursion goes through a list and
everything nested in it.
-/

namespace CLSmith

namespace Common

/-- **A list of statements**, named in `α`, whose blocks are named in `β`. The
statements of a block come with its name, so the whole of a function is one such list. -/
inductive Stms (α β : Type)
  | nil
  | leaf (s : α) (rest : Stms α β)
  | ifElse (s : α) (t e : β) (ifTrue ifFalse rest : Stms α β)
  | forLoop (s : α) (b : β) (body rest : Stms α β)
deriving DecidableEq

namespace Stms

variable {α β : Type}

/-- The statements of the list itself. -/
def roots : Stms α β → List α
  | nil => []
  | leaf s rest => s :: rest.roots
  | ifElse s _ _ _ _ rest => s :: rest.roots
  | forLoop s _ _ rest => s :: rest.roots

/-- All statements, in the order of the text. -/
def preorder : Stms α β → List α
  | nil => []
  | leaf s rest => s :: rest.preorder
  | ifElse s _ _ T E rest => s :: (T.preorder ++ E.preorder ++ rest.preorder)
  | forLoop s _ B rest => s :: (B.preorder ++ rest.preorder)

/-- All statements of a block `b` that is `d` deep, each with the block it
stands in and the depth of that. -/
def visits : β → ℕ → Stms α β → List (α × β × ℕ)
  | _, _, nil => []
  | b, d, leaf s rest => (s, b, d) :: rest.visits b d
  | b, d, ifElse s t e T E rest =>
    (s, b, d) :: (T.visits t (d + 1) ++ E.visits e (d + 1) ++ rest.visits b d)
  | b, d, forLoop s c B rest => (s, b, d) :: (B.visits c (d + 1) ++ rest.visits b d)

/-- All blocks, each after those in it. -/
def blocks : Stms α β → List β
  | nil => []
  | leaf _ rest => rest.blocks
  | ifElse _ t e T E rest => T.blocks ++ t :: (E.blocks ++ e :: rest.blocks)
  | forLoop _ b B rest => B.blocks ++ b :: rest.blocks

/-- How deep the blocks nest. -/
def depth : Stms α β → ℕ
  | nil => 0
  | leaf _ rest => rest.depth
  | ifElse _ _ _ T E rest => max (max (T.depth + 1) (E.depth + 1)) rest.depth
  | forLoop _ _ B rest => max (B.depth + 1) rest.depth

protected def append : Stms α β → Stms α β → Stms α β
  | nil, U => U
  | leaf s rest, U => leaf s (rest.append U)
  | ifElse s t e T E rest, U => ifElse s t e T E (rest.append U)
  | forLoop s b B rest, U => forLoop s b B (rest.append U)

instance : Append (Stms α β) := ⟨Stms.append⟩

/-- Plain statements, one after the other. -/
def leaves : List α → Stms α β
  | [] => nil
  | s :: l => leaf s (leaves l)

section Append

variable (s : α) (t e : β) (T E U V : Stms α β)

@[simp] theorem nil_append : (nil : Stms α β) ++ U = U := rfl

@[simp] theorem leaf_append : leaf s T ++ U = leaf s (T ++ U) := rfl

@[simp] theorem ifElse_append : ifElse s t e T E V ++ U = ifElse s t e T E (V ++ U) := rfl

@[simp] theorem forLoop_append : forLoop s t T V ++ U = forLoop s t T (V ++ U) := rfl

@[simp] theorem append_nil : T ++ nil = T := by
  induction T with
  | nil => rfl
  | leaf s rest ih => rw [leaf_append, ih]
  | ifElse s t e T E rest _ _ ih => rw [ifElse_append, ih]
  | forLoop s b B rest _ ih => rw [forLoop_append, ih]

theorem append_assoc : T ++ U ++ V = T ++ (U ++ V) := by
  induction T with
  | nil => rfl
  | leaf s rest ih => simp only [leaf_append, ih]
  | ifElse s t e T E rest _ _ ih => simp only [ifElse_append, ih]
  | forLoop s b B rest _ ih => simp only [forLoop_append, ih]

@[simp] theorem roots_append : (T ++ U).roots = T.roots ++ U.roots := by
  induction T with
  | nil => rfl
  | leaf s rest ih => simp only [leaf_append, roots, ih, List.cons_append]
  | ifElse s t e T E rest _ _ ih => simp only [ifElse_append, roots, ih, List.cons_append]
  | forLoop s b B rest _ ih => simp only [forLoop_append, roots, ih, List.cons_append]

@[simp] theorem preorder_append : (T ++ U).preorder = T.preorder ++ U.preorder := by
  induction T with
  | nil => rfl
  | leaf s rest ih => simp only [leaf_append, preorder, ih, List.cons_append]
  | ifElse s t e T E rest _ _ ih =>
    simp only [ifElse_append, preorder, ih, List.cons_append, List.append_assoc]
  | forLoop s b B rest _ ih =>
    simp only [forLoop_append, preorder, ih, List.cons_append, List.append_assoc]

@[simp] theorem blocks_append : (T ++ U).blocks = T.blocks ++ U.blocks := by
  induction T with
  | nil => rfl
  | leaf s rest ih => simp only [leaf_append, blocks, ih]
  | ifElse s t e T E rest _ _ ih =>
    simp only [ifElse_append, blocks, ih, List.cons_append, List.append_assoc]
  | forLoop s b B rest _ ih =>
    simp only [forLoop_append, blocks, ih, List.cons_append, List.append_assoc]

@[simp] theorem depth_append : (T ++ U).depth = max T.depth U.depth := by
  induction T with
  | nil => exact (Nat.zero_max _).symm
  | leaf s rest ih => simp only [leaf_append, depth, ih]
  | ifElse s t e T E rest _ _ ih => simp only [ifElse_append, depth, ih, max_assoc]
  | forLoop s b B rest _ ih => simp only [forLoop_append, depth, ih, max_assoc]

end Append

@[simp] theorem roots_leaves (l : List α) : (leaves l : Stms α β).roots = l := by
  induction l with
  | nil => rfl
  | cons s l ih => simp only [leaves, roots, ih]

section Weigh

variable {γ : Type} [AddCommMonoid γ] (f : α → γ) (g : β → γ)

/-- The sum over all statements and blocks. -/
def weigh : Stms α β → γ
  | nil => 0
  | leaf s rest => f s + rest.weigh
  | ifElse s t e T E rest => f s + (g t + g e + (T.weigh + (E.weigh + rest.weigh)))
  | forLoop s b B rest => f s + (g b + (B.weigh + rest.weigh))

@[simp] theorem weigh_append (T U : Stms α β) :
    (T ++ U).weigh f g = T.weigh f g + U.weigh f g := by
  induction T with
  | nil => simp only [nil_append, weigh, zero_add]
  | leaf s rest ih => simp only [leaf_append, weigh, ih, add_assoc]
  | ifElse s t e T E rest _ _ ih => simp only [ifElse_append, weigh, ih, add_assoc]
  | forLoop s b B rest _ ih => simp only [forLoop_append, weigh, ih, add_assoc]

@[simp] theorem weigh_leaves (l : List α) :
    (leaves l : Stms α β).weigh f g = (l.map f).sum := by
  induction l with
  | nil => rfl
  | cons s l ih => simp only [leaves, weigh, ih, List.map_cons, List.sum_cons]

/-- The statements as a multiset. -/
theorem coe_preorder (T : Stms α β) :
    (T.preorder : Multiset α) = T.weigh (fun s => {s}) fun _ => 0 := by
  induction T with
  | nil => rfl
  | leaf s rest ih => rw [preorder, weigh, ← Multiset.cons_coe, ih, Multiset.singleton_add]
  | ifElse s t e T E rest ihT ihE ih =>
    rw [preorder, weigh, ← Multiset.cons_coe, ← Multiset.coe_add, ← Multiset.coe_add, ihT, ihE, ih,
      Multiset.singleton_add, zero_add, zero_add, add_assoc]
  | forLoop s b B rest ihB ih =>
    rw [preorder, weigh, ← Multiset.cons_coe, ← Multiset.coe_add, ihB, ih, Multiset.singleton_add,
      zero_add]

/-- The blocks as a multiset. -/
theorem coe_blocks (T : Stms α β) :
    (T.blocks : Multiset β) = T.weigh (fun _ => 0) fun b => {b} := by
  induction T with
  | nil => rfl
  | leaf s rest ih => rw [blocks, weigh, ih, zero_add]
  | ifElse s t e T E rest ihT ihE ih =>
    rw [blocks, weigh, ← Multiset.coe_add, ← Multiset.cons_coe, ← Multiset.coe_add,
      ← Multiset.cons_coe, ihT, ihE, ih, zero_add, ← Multiset.singleton_add,
      ← Multiset.singleton_add]
    abel
  | forLoop s b B rest ihB ih =>
    rw [blocks, weigh, ← Multiset.coe_add, ← Multiset.cons_coe, ihB, ih, zero_add,
      ← Multiset.singleton_add]
    abel

end Weigh

theorem roots_sublist (T : Stms α β) : T.roots.Sublist T.preorder := by
  induction T with
  | nil => exact List.Sublist.refl _
  | leaf s rest ih => exact ih.cons_cons s
  | ifElse s t e T E rest _ _ ih => exact (ih.trans (List.sublist_append_right _ _)).cons_cons s
  | forLoop s b B rest _ ih => exact (ih.trans (List.sublist_append_right _ _)).cons_cons s

@[simp] theorem map_fst_visits (T : Stms α β) (b : β) (d : ℕ) :
    (T.visits b d).map Prod.fst = T.preorder := by
  induction T generalizing b d with
  | nil => rfl
  | leaf s rest ih => simp only [visits, preorder, List.map_cons, ih]
  | ifElse s t e T E rest ihT ihE ih =>
    simp only [visits, preorder, List.map_cons, List.map_append, ihT, ihE, ih]
  | forLoop s c B rest ihB ih =>
    simp only [visits, preorder, List.map_cons, List.map_append, ihB, ih]

theorem eq_nil_of_roots {T : Stms α β} (h : T.roots = []) : T = nil := by
  cases T with
  | nil => rfl
  | _ => exact absurd h (List.cons_ne_nil _ _)

theorem mem_preorder_of_mem_roots {T : Stms α β} {s : α} (h : s ∈ T.roots) : s ∈ T.preorder :=
  T.roots_sublist.subset h

end Stms

end Common

end CLSmith
