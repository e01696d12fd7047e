import CLSmith.Common.Chronicle
import CLSmith.TypeTable
import Mathlib.Logic.Relation
/-!
# Every definition once, after what it needs

`OutputStructUnion` is a depth-first walk that stops at what is printed. In a
table where a `sid` stands for one type, it writes each definition once, after
those of the fields, and just the definitions of what is used and of what that
is made of.
-/

namespace CLSmith

namespace TypeTable

open Common (Chronicle)

variable {t u v : Typ} {out out' pre post : List Typ} {fs : List Typ} {sid : ℕ}

/-! ## Types as trees -/

namespace Typ

theorem induction {P : Typ → Prop} (simple : ∀ a s, P (.simple a s))
    (pointer : ∀ a t, P t → P (.pointer a t))
    (aggregate : ∀ sid s p fs qs ls, (∀ f ∈ fs, P f) → P (.aggregate sid s p fs qs ls))
    (other : ∀ a, P (.other a)) (t : Typ) : P t :=
  @Typ.rec P (fun fs => ∀ f ∈ fs, P f) simple pointer aggregate other
    (fun _ h => absurd h List.not_mem_nil)
    (fun _ _ hf hfs _ hin => (List.mem_cons.mp hin).elim (fun he => he ▸ hf) (hfs _)) t

/-- The two have one `sid`. -/
def SameSid (t u : Typ) : Prop := ∃ sid, t.hasSid sid = true ∧ u.hasSid sid = true

theorem hasSid_aggregate {sid' : ℕ} {s p : Bool} {qs : List CVQualifiers} {ls : List ℤ} :
    hasSid sid (.aggregate sid' s p fs qs ls) = true ↔ sid = sid' := by
  simp [hasSid]

theorem isAggregate_of_hasSid (h : t.hasSid sid = true) : t.isAggregate = true := by
  cases t with
  | aggregate => rfl
  | simple => exact absurd h Bool.false_ne_true
  | pointer => exact absurd h Bool.false_ne_true
  | other => exact absurd h Bool.false_ne_true

/-- An aggregate among the fields. -/
def Field (t f : Typ) : Prop := f ∈ t.fields ∧ f.isAggregate = true

/-- **What a type is made of**, itself included. A pointer is not made of what it
points to. -/
def Within (t u : Typ) : Prop := Relation.ReflTransGen Field t u

theorem Field.sizeOf_lt (h : t.Field u) : sizeOf u < sizeOf t := by
  cases t with
  | aggregate sid s p fs qs ls =>
    have hlt : sizeOf u < sizeOf fs := List.sizeOf_lt_of_mem h.1
    rw [aggregate.sizeOf_spec]
    omega
  | simple => exact absurd h.1 List.not_mem_nil
  | pointer => exact absurd h.1 List.not_mem_nil
  | other => exact absurd h.1 List.not_mem_nil

theorem Within.sizeOf_le (h : t.Within u) : sizeOf u ≤ sizeOf t := by
  induction h with
  | refl => exact le_rfl
  | tail _ hlast ih => exact hlast.sizeOf_lt.le.trans ih

end Typ

/-! ## Definitions in order -/

/-- What a definition needs before it: those of the fields, and it is not there yet. -/
def Follows (pre : List Typ) (t : Typ) : Prop :=
  t.isAggregate = true ∧ (∀ u ∈ pre, ¬ u.SameSid t) ∧ ∀ f, t.Field f → f ∈ pre

/-- What is written is closed. -/
theorem mem_of_within (h : Chronicle Follows out) (ht : t ∈ out) (hu : t.Within u) :
    u ∈ out := by
  induction hu with
  | refl => exact ht
  | tail _ hlast ih =>
    obtain ⟨pre, hpre, hfollows⟩ := h.exists_before ih
    exact hpre _ (hfollows.2.2 _ hlast)

/-- **A family of types where a `sid` stands for one**, closed under fields. In such a
family it makes no difference that `OutputStructUnion` compares numbers and not
objects. -/
structure Family (U : Typ → Prop) : Prop where
  unique : ∀ t u, U t → U u → t.SameSid u → t = u
  field : ∀ t f, U t → t.Field f → U f

section Walk

variable {U : Typ → Prop}

theorem Family.within (hU : Family U) (ht : U t) (h : t.Within u) : U u := by
  induction h with
  | refl => exact ht
  | tail _ hlast ih => exact hU.field _ _ ih hlast

/-- What a walk over some types does to what is written. -/
structure Written (U : Typ → Prop) (ts out out' : List Typ) : Prop where
  ordered : Chronicle Follows out'
  family : ∀ u ∈ out', U u
  kept : ∀ u ∈ out, u ∈ out'
  written : ∀ t ∈ ts, t.isAggregate = true → t ∈ out'
  only : ∀ u ∈ out', u ∈ out ∨ ∃ t ∈ ts, t.isAggregate = true ∧ t.Within u

theorem Written.nil (h : Chronicle Follows out) (hout : ∀ u ∈ out, U u) : Written U [] out out :=
  ⟨h, hout, fun _ => id, fun _ h => absurd h List.not_mem_nil, fun _ => .inl⟩

theorem Written.trans {ts : List Typ} {out₁ : List Typ} (h : Written U [t] out out₁)
    (h' : Written U ts out₁ out') : Written U (t :: ts) out out' := by
  refine ⟨h'.ordered, h'.family, fun u hu => h'.kept u (h.kept u hu), fun u hu hagg => ?_,
    fun u hu => ?_⟩
  · rcases List.mem_cons.mp hu with rfl | hin
    · exact h'.kept u (h.written u (List.mem_singleton_self u) hagg)
    · exact h'.written u hin hagg
  · rcases h'.only u hu with hold | ⟨w, hw, hagg, hwithin⟩
    · rcases h.only u hold with hold | ⟨w, hw, hagg, hwithin⟩
      · exact .inl hold
      · exact .inr ⟨w, List.mem_cons.mpr (.inl (List.mem_singleton.mp hw)), hagg, hwithin⟩
    · exact .inr ⟨w, List.mem_cons_of_mem _ hw, hagg, hwithin⟩

/-- Over a list, where it is so for each. -/
theorem written_outputFields (ts : List Typ) (hts : ∀ t ∈ ts, ∀ out, Chronicle Follows out →
      (∀ u ∈ out, U u) → Written U [t] out
        (if t.isAggregate then outputStructUnion t out else out))
    (h : Chronicle Follows out) (hout : ∀ u ∈ out, U u) :
    Written U ts out (outputFields ts out) := by
  induction ts generalizing out with
  | nil => exact .nil h hout
  | cons t ts ih =>
    have hone := hts t List.mem_cons_self out h hout
    exact hone.trans (ih (fun u hu => hts u (List.mem_cons_of_mem _ hu)) hone.ordered hone.family)

/-- **`OutputStructUnion`** writes the type, with what it is made of. -/
theorem written_outputStructUnion (hU : Family U) (t : Typ) (ht : t.isAggregate = true → U t)
    (h : Chronicle Follows out) (hout : ∀ u ∈ out, U u) :
    Written U [t] out (if t.isAggregate then outputStructUnion t out else out) := by
  -- of another type nothing is written
  have hnone : ∀ {t : Typ} {out : List Typ}, t.isAggregate = false → Chronicle Follows out →
      (∀ u ∈ out, U u) → Written U [t] out out := by
    intro t out ht h hout
    refine ⟨h, hout, fun _ => id, fun u hu hagg => ?_, fun _ => .inl⟩
    rw [List.mem_singleton.mp hu, ht] at hagg
    exact absurd hagg Bool.false_ne_true
  induction t using Typ.induction generalizing out with
  | simple a s => exact hnone rfl h hout
  | pointer a t _ => exact hnone rfl h hout
  | other a => exact hnone rfl h hout
  | aggregate sid s p fs qs ls ih =>
    have hself := ht rfl
    have hagg : (Typ.aggregate sid s p fs qs ls).isAggregate = true := rfl
    rw [if_pos hagg, outputStructUnion]
    split
    · next hprinted =>
      obtain ⟨u, hu, hsid⟩ := List.any_eq_true.mp hprinted
      obtain rfl := hU.unique u _ (hout u hu) hself ⟨sid, hsid, Typ.hasSid_aggregate.mpr rfl⟩
      refine ⟨h, hout, fun _ => id, fun w hw _ => ?_, fun _ => .inl⟩
      rw [List.mem_singleton.mp hw]
      exact hu
    · next hnew =>
      have hfields : ∀ f ∈ fs, f.isAggregate = true → U f := fun f hf hfa =>
        hU.field _ f hself ⟨hf, hfa⟩
      have hwalk := written_outputFields fs
        (fun f hf out h hout => ih f hf (hfields f hf) h hout) h hout
      have hfresh : ∀ u ∈ outputFields fs out, ¬ u.SameSid (.aggregate sid s p fs qs ls) := by
        rintro u hu ⟨sid', hsid, hsid'⟩
        obtain rfl := Typ.hasSid_aggregate.mp hsid'
        rcases hwalk.only u hu with hold | ⟨f, hf, hfa, hwithin⟩
        · exact hnew (List.any_eq_true.mpr ⟨u, hold, hsid⟩)
        · -- a part is smaller than the whole
          have heq := hU.unique u _ (hwalk.family u hu) hself ⟨_, hsid, hsid'⟩
          have hlt := Typ.Field.sizeOf_lt (t := .aggregate sid' s p fs qs ls) ⟨hf, hfa⟩
          have hle := hwithin.sizeOf_le
          rw [heq] at hle
          omega
      refine ⟨Chronicle.snoc_iff.mpr ⟨hwalk.ordered, hagg, hfresh, fun f hf =>
        hwalk.written f hf.1 hf.2⟩, fun u hu => ?_, fun u hu =>
        List.mem_append_left _ (hwalk.kept u hu), fun w hw _ => ?_, fun u hu => ?_⟩
      · rcases List.mem_append.mp hu with hin | hlast
        · exact hwalk.family u hin
        · rw [List.mem_singleton.mp hlast]
          exact hself
      · exact List.mem_append_right _ hw
      · rcases List.mem_append.mp hu with hin | hlast
        · rcases hwalk.only u hin with hold | ⟨f, hf, hfa, hwithin⟩
          · exact .inl hold
          · exact .inr ⟨_, List.mem_singleton_self _, hagg, .head ⟨hf, hfa⟩ hwithin⟩
        · rw [List.mem_singleton.mp hlast]
          exact .inr ⟨_, List.mem_singleton_self _, hagg, .refl⟩

end Walk

end TypeTable

end CLSmith
