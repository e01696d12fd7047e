import CLSmith.Common.Chronicle
/-!
# Scopes

Scopes with scopes around them, each with what is declared in it, one thing after
the other. A declaration may refer to others. It does so in order if these come
before it, in its own scope or in one around it.
-/

namespace CLSmith

namespace Common

/-- **Scopes**: those around each (with itself), what each declares, and what the
declaration of a thing refers to. -/
structure Scopes (S V : Type*) where
  around : S → S → Prop
  decls : S → List V
  refs : V → V → Prop

namespace Scopes

variable {S V : Type*} (σ σ' : Scopes S V)

/-- Declared in the scope or around it. -/
def Visible (s : S) (w : V) : Prop := ∃ t, σ.around s t ∧ w ∈ σ.decls t

/-- Declared around the scope, or in it up to here. -/
def Before (s : S) (pre : List V) (w : V) : Prop :=
  w ∈ pre ∨ ∃ t, t ≠ s ∧ σ.around s t ∧ w ∈ σ.decls t

/-- **Every declaration refers to what comes before it**: in its own scope, or in one
around. -/
def Ordered : Prop :=
  ∀ s, Chronicle (fun pre v => ∀ w, σ.refs v w → σ.Before s pre w) (σ.decls s)

/-- Nothing is declared twice, neither in one scope nor in two of them. -/
structure Unique : Prop where
  nodup : ∀ s, (σ.decls s).Nodup
  scope : ∀ s t v, v ∈ σ.decls s → v ∈ σ.decls t → s = t

/-- Scopes that are there stay where they are, and declarations stay as they are. -/
structure Grows (There : S → Prop) : Prop where
  around : ∀ s t, There s → σ.around s t → σ'.around s t
  decls : ∀ s v, v ∈ σ.decls s → v ∈ σ'.decls s
  refs : ∀ s v w, v ∈ σ.decls s → σ'.refs v w → σ.refs v w

/-- One more thing is declared in a scope, behind those it has; it was declared
nowhere before. -/
structure Declares (s : S) (v : V) : Prop where
  here : σ'.decls s = σ.decls s ++ [v]
  there : ∀ t, t ≠ s → σ'.decls t = σ.decls t
  fresh : ∀ t, v ∉ σ.decls t

variable {σ σ'} {There : S → Prop} {s t : S} {v w : V} {pre : List V}

theorem Visible.mono (h : σ.Visible s w) (hg : Grows σ σ' There) (hs : There s) :
    σ'.Visible s w := by
  obtain ⟨t, ht, hw⟩ := h
  exact ⟨t, hg.around s t hs ht, hg.decls t w hw⟩

theorem Visible.inner (h : σ.Visible t w) (hst : ∀ u, σ.around t u → σ.around s u) :
    σ.Visible s w := by
  obtain ⟨u, hu, hw⟩ := h
  exact ⟨u, hst u hu, hw⟩

theorem Visible.before (h : σ.Visible s w) : σ.Before s (σ.decls s) w := by
  obtain ⟨t, ht, hw⟩ := h
  by_cases hts : t = s
  · rw [hts] at hw
    exact .inl hw
  · exact .inr ⟨t, hts, ht, hw⟩

theorem Before.visible (h : σ.Before s pre w) (hs : σ.around s s)
    (hpre : ∀ v ∈ pre, v ∈ σ.decls s) : σ.Visible s w := by
  rcases h with hw | ⟨t, -, ht, hw⟩
  · exact ⟨s, hs, hpre w hw⟩
  · exact ⟨t, ht, hw⟩

theorem Before.mono (h : σ.Before s pre w) (hg : Grows σ σ' There) (hs : There s) :
    σ'.Before s pre w := by
  rcases h with hw | ⟨t, hts, ht, hw⟩
  · exact .inl hw
  · exact .inr ⟨t, hts, hg.around s t hs ht, hg.decls t w hw⟩

/-- **What a declaration refers to is visible** where it is. -/
theorem Ordered.visible (h : σ.Ordered) (hs : σ.around s s) (hv : v ∈ σ.decls s)
    (hw : σ.refs v w) : σ.Visible s w := by
  obtain ⟨pre, hpre, href⟩ := (h s).exists_before hv
  exact (href w hw).visible hs hpre

theorem Declares.mono (h : Declares σ σ' s v) (hw : w ∈ σ.decls t) : w ∈ σ'.decls t := by
  by_cases hts : t = s
  · subst hts
    rw [h.here]
    exact List.mem_append_left _ hw
  · rwa [h.there t hts]

section Grows

variable (hg : Grows σ σ' There) (hthere : ∀ s, σ.decls s ≠ [] → There s)
include hg hthere

theorem Ordered.old (h : σ.Ordered) (s : S) :
    Chronicle (fun pre v => ∀ w, σ'.refs v w → σ'.Before s pre w) (σ.decls s) := by
  rintro pre v post heq w hw
  have hv : v ∈ σ.decls s := by simp [heq]
  exact (h s pre v post heq w (hg.refs s v w hv hw)).mono hg
    (hthere s (List.ne_nil_of_mem hv))

theorem Ordered.same (h : σ.Ordered) (hsame : ∀ s, σ'.decls s = σ.decls s) : σ'.Ordered := by
  intro s
  rw [hsame]
  exact h.old hg hthere s

/-- **A declaration that refers to what is visible keeps the order.** -/
theorem Ordered.declare (h : σ.Ordered) (hd : Declares σ σ' s v) (hs : There s)
    (hrefs : ∀ w, σ'.refs v w → σ.Visible s w) : σ'.Ordered := by
  intro t
  by_cases hts : t = s
  · subst hts
    rw [hd.here]
    refine Chronicle.snoc_iff.mpr ⟨h.old hg hthere t, fun w hw => ?_⟩
    exact (hrefs w hw).before.mono hg hs
  · rw [hd.there t hts]
    exact h.old hg hthere t

end Grows

theorem Unique.same (h : σ.Unique) (hsame : ∀ s, σ'.decls s = σ.decls s) : σ'.Unique where
  nodup s := by
    rw [hsame]
    exact h.nodup s
  scope s t v := by
    rw [hsame, hsame]
    exact h.scope s t v

theorem Unique.declare (h : σ.Unique) (hd : Declares σ σ' s v) : σ'.Unique := by
  have hcases : ∀ t u, u ∈ σ'.decls t → u ∈ σ.decls t ∨ t = s ∧ u = v := by
    intro t u hu
    by_cases hts : t = s
    · subst hts
      rw [hd.here, List.mem_append, List.mem_singleton] at hu
      exact hu.imp_right fun hu => ⟨rfl, hu⟩
    · rw [hd.there t hts] at hu
      exact .inl hu
  refine ⟨fun t => ?_, fun t t' u hu hu' => ?_⟩
  · by_cases hts : t = s
    · subst hts
      rw [hd.here]
      refine List.nodup_append.mpr ⟨h.nodup t, by simp, fun a ha b hb hab => ?_⟩
      rw [hab, List.mem_singleton.mp hb] at ha
      exact hd.fresh t ha
    · rw [hd.there t hts]
      exact h.nodup t
  · rcases hcases t u hu with hold | ⟨ht, hv⟩
    · rcases hcases t' u hu' with hold' | ⟨-, hv'⟩
      · exact h.scope t t' u hold hold'
      · rw [hv'] at hold
        exact absurd hold (hd.fresh t)
    · rcases hcases t' u hu' with hold' | ⟨ht', -⟩
      · rw [hv] at hold'
        exact absurd hold' (hd.fresh t')
      · rw [ht, ht']

end Scopes

end Common

end CLSmith
