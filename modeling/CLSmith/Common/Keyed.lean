import Mathlib.Data.List.Perm.Subperm
import Mathlib.Data.List.Nodup
import Mathlib.Order.Lattice
import Mathlib.Order.WithBot
import Mathlib.Order.Bounds.Basic
/-!
# Environments as lists

Entries with a key and a value of a semilattice, at most one for each key, in
a list without order. A list stands for a function of the keys (`den`);
merging one list into another, entry by entry, is the supremum of the two.
-/

namespace CLSmith

namespace Common

/-- **Known or mixed**: a semilattice over a type without order. Two values that
differ have no upper bound among the known ones, and join to `mixed`. -/
inductive Flat (α : Type)
  | known (a : α)
  | mixed
deriving DecidableEq

namespace Flat

variable {α : Type} [DecidableEq α]

/-- Two values that differ are mixed. -/
def join : Flat α → Flat α → Flat α
  | known a, known b => if a = b then known a else mixed
  | _, _ => mixed

theorem join_comm (x y : Flat α) : join x y = join y x := by
  cases x <;> cases y <;> grind [join]

theorem join_assoc (x y z : Flat α) : join (join x y) z = join x (join y z) := by
  cases x <;> cases y <;> cases z <;> grind [join]

theorem join_idem (x : Flat α) : join x x = x := by
  cases x <;> simp [join]

instance : Max (Flat α) := ⟨join⟩

instance : SemilatticeSup (Flat α) := SemilatticeSup.mk' join_comm join_assoc join_idem

theorem le_iff {x y : Flat α} : x ≤ y ↔ y = mixed ∨ x = y := by
  rw [← sup_eq_right]
  show join x y = y ↔ _
  cases x <;> cases y <;> grind [join]

theorem sup_eq (x y : Flat α) : x ⊔ y = if x = y then x else mixed := by
  show join x y = _
  cases x <;> cases y <;> grind [join]

end Flat

namespace Keyed

variable {α K L : Type} [DecidableEq K] (key : α → K) (val : α → L)

/-- The function of the keys a list stands for. -/
def den (l : List α) (k : K) : WithBot L :=
  match l.find? fun a => decide (key a = k) with
  | some a => (val a : L)
  | none => ⊥

/-- **One entry merged in**: into the entry of its key unless that implies it
already, or at the end. The second part says whether anything changed. -/
def mergeOne (imply : α → α → Bool) (join : α → α → α) : List α → α → List α × Bool
  | [], n => ([n], true)
  | f :: l, n =>
    if key f = key n then
      if imply f n then (f :: l, false) else (join n f :: l, true)
    else (f :: (mergeOne imply join l n).1, (mergeOne imply join l n).2)

/-- **One list merged into another**, and whether anything changed. The entries of the
second are taken one after the other, each against the first as it then is. -/
def merge (imply : α → α → Bool) (join : α → α → α) : List α → List α → List α × Bool
  | l, [] => (l, false)
  | l, n :: ns =>
    ((merge imply join (mergeOne key imply join l n).1 ns).1,
      (mergeOne key imply join l n).2 || (merge imply join (mergeOne key imply join l n).1 ns).2)

/-- As many entries, each equal to one of the other list. -/
def same (equal : α → α → Bool) (l l' : List α) : Bool :=
  decide (l.length = l'.length) && l.all fun f => l'.any (equal f)

variable {key val} {l l' : List α} {k : K} {a : α}

section Den

theorem den_nil : den key val [] k = ⊥ := rfl

theorem den_cons : den key val (a :: l) k = if key a = k then ↑(val a) else den key val l k := by
  unfold den
  rw [List.find?_cons]
  by_cases h : key a = k <;> simp [h]

theorem den_eq_bot : den key val l k = ⊥ ↔ k ∉ l.map key := by
  induction l with
  | nil => simp [den_nil]
  | cons a l ih =>
    rw [den_cons, List.map_cons, List.mem_cons, not_or]
    split
    · next h => simp [h]
    · next h => rw [ih]; exact ⟨fun h' => ⟨fun e => h e.symm, h'⟩, fun h' => h'.2⟩

/-- With one entry for each key, an entry is the value of its key. -/
theorem den_eq_coe (h : (l.map key).Nodup) {v : L} :
    den key val l k = v ↔ (k, v) ∈ l.map fun a => (key a, val a) := by
  induction l with
  | nil => simp [den_nil]
  | cons a l ih =>
    rw [List.map_cons, List.nodup_cons] at h
    rw [den_cons, List.map_cons, List.mem_cons, Prod.mk.injEq]
    split
    · next hk =>
      rw [WithBot.coe_inj]
      constructor
      · exact fun hv => .inl ⟨hk.symm, hv.symm⟩
      · rintro (⟨-, hv⟩ | hmem)
        · exact hv.symm
        · obtain ⟨b, hb, heq⟩ := List.mem_map.mp hmem
          have hkb : key b = k := congrArg Prod.fst heq
          exact absurd (List.mem_map_of_mem hb) (hkb.trans hk.symm ▸ h.1)
    · next hk =>
      rw [ih h.2]
      exact ⟨.inr, fun h' => h'.resolve_left fun e => hk e.1.symm⟩

theorem den_of_mem (h : (l.map key).Nodup) (ha : a ∈ l) : den key val l (key a) = val a :=
  (den_eq_coe h).mpr (List.mem_map.mpr ⟨a, ha, rfl⟩)

omit [DecidableEq K] in
theorem nodup_pairs (h : (l.map key).Nodup) : (l.map fun a => (key a, val a)).Nodup := by
  refine List.Nodup.of_map Prod.fst ?_
  rwa [List.map_map]

/-- **Lists stand for the same function** where they have the same entries, in
any order. -/
theorem den_eq_iff (h : (l.map key).Nodup) (h' : (l'.map key).Nodup) :
    den key val l = den key val l' ↔
      (l.map fun a => (key a, val a)).Perm (l'.map fun a => (key a, val a)) := by
  rw [List.perm_ext_iff_of_nodup (nodup_pairs h) (nodup_pairs h')]
  constructor
  · rintro heq ⟨k, v⟩
    rw [← den_eq_coe h, ← den_eq_coe h', heq]
  · intro hmem
    funext k
    cases hk : den key val l k with
    | bot =>
      cases hk' : den key val l' k with
      | bot => rfl
      | coe v =>
        rw [den_eq_coe h', ← hmem, ← den_eq_coe h, hk] at hk'
        cases hk'
    | coe v =>
      rw [den_eq_coe h, hmem, ← den_eq_coe h'] at hk
      exact hk.symm

/-- **`same` is equality.** -/
theorem same_iff {equal : α → α → Bool} (h : (l.map key).Nodup) (h' : (l'.map key).Nodup)
    (hequal : ∀ f ∈ l, ∀ g ∈ l', equal f g = true ↔ key f = key g ∧ val f = val g) :
    same equal l l' = true ↔ den key val l = den key val l' := by
  rw [den_eq_iff h h']
  unfold same
  rw [Bool.and_eq_true, decide_eq_true_eq, List.all_eq_true]
  constructor
  · rintro ⟨hlen, hall⟩
    have hsub : (l.map fun a => (key a, val a)) ⊆ l'.map fun a => (key a, val a) := by
      intro p hp
      obtain ⟨f, hf, rfl⟩ := List.mem_map.mp hp
      obtain ⟨g, hg, hfg⟩ := List.any_eq_true.mp (hall f hf)
      obtain ⟨hk, hv⟩ := (hequal f hf g hg).mp hfg
      exact List.mem_map.mpr ⟨g, hg, by rw [hk, hv]⟩
    refine (List.subperm_of_subset (nodup_pairs h) hsub).perm_of_length_le ?_
    rw [List.length_map, List.length_map, hlen]
  · intro hperm
    refine ⟨?_, fun f hf => List.any_eq_true.mpr ?_⟩
    · have := hperm.length_eq
      rwa [List.length_map, List.length_map] at this
    · obtain ⟨g, hg, heq⟩ := List.mem_map.mp (hperm.mem_iff.mp (List.mem_map_of_mem hf))
      rw [Prod.mk.injEq] at heq
      exact ⟨g, hg, (hequal f hf g hg).mpr ⟨heq.1.symm, heq.2.symm⟩⟩

end Den

section Merge

variable [SemilatticeSup L]

/-- **What merging asks of entries**: joining is the supremum, and implying
the order. -/
structure Lawful (key : α → K) (val : α → L) (ok : α → Prop) (imply : α → α → Bool)
    (join : α → α → α) : Prop where
  key_join : ∀ {f n}, key f = key n → key (join n f) = key n
  ok_join : ∀ {f n}, key f = key n → ok f → ok n → ok (join n f)
  val_join : ∀ {f n}, key f = key n → ok f → ok n → val (join n f) = val n ⊔ val f
  imply_iff : ∀ {f n}, key f = key n → ok f → ok n → (imply f n = true ↔ val n ≤ val f)

/-- **A list is well formed**: one entry for each key, and all in order. On such lists
an entry can be looked up by its key, and merging is an operation on functions of the
keys. -/
structure Wf (key : α → K) (ok : α → Prop) (l : List α) : Prop where
  keys : (l.map key).Nodup
  ok : ∀ a ∈ l, ok a

variable {ok : α → Prop} {imply : α → α → Bool} {join : α → α → α} {n : α} {ns : List α}

omit [DecidableEq K] [SemilatticeSup L] in
theorem Wf.tail (h : Wf key ok (a :: l)) : Wf key ok l :=
  ⟨(List.nodup_cons.mp h.keys).2, fun b hb => h.ok b (List.mem_cons_of_mem _ hb)⟩

omit [DecidableEq K] [SemilatticeSup L] in
theorem Wf.cons (ha : ok a) (hk : key a ∉ l.map key) (h : Wf key ok l) : Wf key ok (a :: l) := by
  refine ⟨List.nodup_cons.mpr ⟨hk, h.keys⟩, fun b hb => ?_⟩
  rcases List.mem_cons.mp hb with rfl | hb
  · exact ha
  · exact h.ok b hb

theorem den_cons_eq_sup (h : key n ∉ ns.map key) :
    den key val (n :: ns) = den key val [n] ⊔ den key val ns := by
  funext k
  rw [Pi.sup_apply, den_cons, den_cons]
  split
  · next hk =>
    rw [den_eq_bot.mpr (hk ▸ h), sup_bot_eq]
  · rw [den_nil, bot_sup_eq]

theorem den_singleton_le {g : K → WithBot L} :
    den key val [n] ≤ g ↔ ((val n : L) : WithBot L) ≤ g (key n) := by
  constructor
  · intro h
    have := h (key n)
    rwa [den_cons, if_pos rfl] at this
  · intro h k
    rw [den_cons]
    split
    · next hk => exact hk ▸ h
    · exact bot_le

/-- The keys of a merge. -/
theorem mem_keys_mergeOne (hlaw : Lawful key val ok imply join) (k : K) :
    k ∈ (mergeOne key imply join l n).1.map key ↔ k = key n ∨ k ∈ l.map key := by
  induction l with
  | nil => simp [mergeOne]
  | cons f l ih =>
    unfold mergeOne
    split
    · next hk =>
      split
      · simp only [List.map_cons, List.mem_cons, hk, or_self_left]
      · simp only [List.map_cons, List.mem_cons, hlaw.key_join hk, hk, or_self_left]
    · simp only [List.map_cons, List.mem_cons, ih]
      tauto

theorem mergeOne_wf (hlaw : Lawful key val ok imply join) (hl : Wf key ok l) (hn : ok n) :
    Wf key ok (mergeOne key imply join l n).1 := by
  induction l with
  | nil => exact ⟨List.nodup_singleton _, fun b hb => List.mem_singleton.mp hb ▸ hn⟩
  | cons f l ih =>
    have hf := hl.ok f List.mem_cons_self
    have hkf := (List.nodup_cons.mp hl.keys).1
    unfold mergeOne
    split
    · next hk =>
      split
      · exact hl
      · refine Wf.cons (hlaw.ok_join hk hf hn) ?_ hl.tail
        rwa [hlaw.key_join hk, ← hk]
    · next hk =>
      refine Wf.cons hf (fun hmem => ?_) (ih hl.tail)
      exact ((mem_keys_mergeOne hlaw _).mp hmem).elim hk hkf

/-- **One entry is a supremum.** -/
theorem den_mergeOne (hlaw : Lawful key val ok imply join) (hl : Wf key ok l) (hn : ok n) :
    den key val (mergeOne key imply join l n).1 = den key val l ⊔ den key val [n] := by
  induction l with
  | nil =>
    funext k
    rw [Pi.sup_apply, den_nil, bot_sup_eq]
    rfl
  | cons f l ih =>
    have hf := hl.ok f List.mem_cons_self
    funext k
    rw [Pi.sup_apply]
    unfold mergeOne
    split
    · next hk =>
      split
      · next himp =>
        have hle := (hlaw.imply_iff hk hf hn).mp himp
        rw [den_cons, den_cons, den_nil]
        split
        · next hfk => rw [if_pos (hk ▸ hfk), ← WithBot.coe_sup, sup_of_le_left hle]
        · next hfk => rw [if_neg (hk ▸ hfk), sup_bot_eq]
      · rw [den_cons, den_cons, den_cons, den_nil, hlaw.key_join hk, hk, hlaw.val_join hk hf hn]
        split
        · rw [← WithBot.coe_sup, sup_comm]
        · rw [sup_bot_eq]
    · next hk =>
      rw [den_cons, den_cons, ih hl.tail, Pi.sup_apply]
      split
      · next hfk => rw [den_cons, if_neg (fun h => hk (hfk.trans h.symm)), den_nil, sup_bot_eq]
      · rfl

/-- **Whether one entry changes anything.** -/
theorem mergeOne_changed (hlaw : Lawful key val ok imply join) (hl : Wf key ok l) (hn : ok n) :
    (mergeOne key imply join l n).2 = true ↔ ¬ den key val [n] ≤ den key val l := by
  rw [den_singleton_le]
  induction l with
  | nil => simp [mergeOne, den_nil]
  | cons f l ih =>
    have hf := hl.ok f List.mem_cons_self
    unfold mergeOne
    rw [den_cons]
    split
    · next hk =>
      have himp := hlaw.imply_iff hk hf hn
      rw [← WithBot.coe_le_coe] at himp
      rw [← himp]
      split
      · next h => simp [h]
      · next h => simp [h]
    · exact ih hl.tail

variable (hlaw : Lawful key val ok imply join)
include hlaw

theorem merge_wf (hl : Wf key ok l) (hns : Wf key ok ns) :
    Wf key ok (merge key imply join l ns).1 := by
  induction ns generalizing l with
  | nil => exact hl
  | cons n ns ih => exact ih (mergeOne_wf hlaw hl (hns.ok n List.mem_cons_self)) hns.tail

theorem mem_keys_merge (k : K) :
    k ∈ (merge key imply join l ns).1.map key ↔ k ∈ l.map key ∨ k ∈ ns.map key := by
  induction ns generalizing l with
  | nil => simp [merge]
  | cons n ns ih =>
    unfold merge
    simp only
    rw [ih, mem_keys_mergeOne hlaw, List.map_cons, List.mem_cons]
    tauto

/-- **Merging is the supremum.** -/
theorem den_merge (hl : Wf key ok l) (hns : Wf key ok ns) :
    den key val (merge key imply join l ns).1 = den key val l ⊔ den key val ns := by
  induction ns generalizing l with
  | nil =>
    funext k
    exact (sup_bot_eq _).symm
  | cons n ns ih =>
    have hn := hns.ok n List.mem_cons_self
    have hkn := (List.nodup_cons.mp hns.keys).1
    calc den key val (merge key imply join l (n :: ns)).1
        = den key val (mergeOne key imply join l n).1 ⊔ den key val ns :=
          ih (mergeOne_wf hlaw hl hn) hns.tail
      _ = den key val l ⊔ den key val (n :: ns) := by
          rw [den_mergeOne hlaw hl hn, sup_assoc, den_cons_eq_sup hkn]

/-- **Merging says whether anything changed.** -/
theorem merge_changed (hl : Wf key ok l) (hns : Wf key ok ns) :
    (merge key imply join l ns).2 = true ↔
      den key val (merge key imply join l ns).1 ≠ den key val l := by
  rw [den_merge hlaw hl hns, ne_eq, sup_eq_left]
  induction ns generalizing l with
  | nil =>
    refine ⟨fun h => (nomatch h), fun h => absurd (fun k => ?_) h⟩
    exact bot_le
  | cons n ns ih =>
    have hn := hns.ok n List.mem_cons_self
    have hkn := (List.nodup_cons.mp hns.keys).1
    unfold merge
    simp only
    rw [Bool.or_eq_true, mergeOne_changed hlaw hl hn, ih (mergeOne_wf hlaw hl hn) hns.tail,
      den_mergeOne hlaw hl hn, den_cons_eq_sup hkn, sup_le_iff, ← not_and_or, not_iff_not]
    refine and_congr_right fun hle => ?_
    rw [sup_of_le_left hle]

end Merge

end Keyed

end Common

end CLSmith
