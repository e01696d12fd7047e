import CLSmith.EMI.Settle
import CLSmith.EMI.Removal
/-!
# Variants stay in sync

The coins pruning draws in a program with gotos. A goto removed with the
statement it leads to is not visited where its block is still to come, so the
draws are the same for all settings where no goto leads to a block that is
through before its own.
-/

namespace CLSmith

namespace EMI

open Generate Common

variable {M : Type}

namespace Pruning

variable {σ₀ σ σ' : Pruning M} {order : List ℕ} {b c d s k n : ℕ} {X : ℕ → Prop}

/-- **How the sections of a function lie**: `order` are their blocks as
pruning gets through with them. No goto leads to a break or a continue. -/
structure Layout (σ : Pruning M) (order : List ℕ) : Prop where
  nodup : order.Nodup
  parent : ∀ c, ∀ s ∈ σ.stms c, σ.parent s = c
  nests : ∀ c ∈ order, ∀ s ∈ σ.stms c, ∀ d ∈ (σ.kind s).blocks,
    d ∈ order ∧ order.idxOf d < order.idxOf c
  gotos : ∀ e ∈ σ.edges, ∃ test, σ.kind e.1 = .goto test e.2
  standing : ∀ e ∈ σ.edges, e.1 ∈ σ.stms (σ.parent e.1)
  undeleted : ∀ e ∈ σ.edges, ∀ c, e.1 ∉ σ.deleted c
  targets : ∀ e ∈ σ.edges, isBreakContinue (σ.kind e.2) = false

/-- **No chain of gotos in the sections leads backward in `order`**: the
block a goto stands in is through no later than the block it leads to. -/
def Ordered (σ : Pruning M) (order : List ℕ) : Prop :=
  ∀ g t, Leads σ.edges g t → σ.parent g ∈ order → σ.parent t ∈ order →
    order.idxOf (σ.parent g) ≤ order.idxOf (σ.parent t)

/-- **A function with the first `k` blocks of `order` through**: the others
have their statements, and a statement has moved no further back. -/
structure Inv (σ₀ : Pruning M) (order : List ℕ) (k : ℕ) (σ : Pruning M) : Prop where
  kind : ∀ s, σ.kind s = σ₀.kind s
  edges : σ.edges ⊆ σ₀.edges
  pending : ∀ c ∈ order, k ≤ order.idxOf c → σ.stms c = σ₀.stms c
  home : ∀ c ∈ order, ∀ s ∈ σ.stms c, σ₀.parent s ∈ order ∧ s ∈ σ₀.stms (σ₀.parent s) ∧
    order.idxOf (σ₀.parent s) ≤ order.idxOf c
  standing : ∀ e ∈ σ.edges, e.1 ∈ σ.stms (σ.parent e.1)
  together : ∀ c c', ∀ s ∈ σ.stms c, ∀ s' ∈ σ.stms c', σ₀.parent s = σ₀.parent s' →
    σ₀.parent s ∈ order → c = c'
  undeleted : ∀ e ∈ σ.edges, ∀ c, e.1 ∉ σ.deleted c

theorem ne_of_idxOf_lt (h : order.idxOf c < order.idxOf b) : b ≠ c := by
  rintro rfl
  exact Nat.lt_irrefl _ h

/-- The position goes on to the first of the statements it passes. -/
theorem exists_advance {l rest : List ℕ} {position : ℕ}
    (h : (s :: rest).Sublist (l.drop position)) :
    ∃ p l', advance l s position = some p ∧ l.drop p = s :: l' ∧ rest.Sublist l' ∧
      p ≤ l.length := by
  have hs : s ∈ l.drop position := h.subset List.mem_cons_self
  obtain ⟨l₁, l₂, hl, hl₁⟩ := List.eq_append_cons_of_mem hs
  have hdrop : l.drop (position + l₁.length) = s :: l₂ := by
    rw [← List.drop_drop, hl, List.drop_left' rfl]
  refine ⟨position + l₁.length, l₂, ?_, hdrop, ?_, ?_⟩
  · rw [advance, if_pos hs, hl, List.idxOf_append_of_notMem hl₁, List.idxOf_cons_self, Nat.add_zero]
  · rw [hl] at h
    obtain ⟨a, b, heq, ha, hb⟩ := List.sublist_append_iff.mp h
    cases a with
    | nil =>
      change s :: rest = b at heq
      subst heq
      exact List.cons_sublist_cons.mp hb
    | cons x a =>
      cases heq
      exact absurd (ha.subset List.mem_cons_self) hl₁
  · by_contra hp
    rw [List.drop_eq_nil_of_le (by omega)] at hdrop
    cases hdrop

/-- Merging leaves what comes after the position. -/
theorem mergeBlock_drop {p : ℕ} (hbc : b ≠ c) (hp : p ≤ (σ.stms b).length) :
    ((σ.mergeBlock p b c).1.stms b).drop (σ.mergeBlock p b c).2 = (σ.stms b).drop p ∧
      (σ.mergeBlock p b c).2 ≤ ((σ.mergeBlock p b c).1.stms b).length := by
  have hpos : (σ.mergeBlock p b c).2 = ((σ.stms b).take p ++ σ.stms c).length := by
    rw [List.length_append, List.length_take, min_eq_left hp]
    rfl
  rw [hpos, mergeBlock_stms hbc, if_neg hbc, if_pos rfl]
  exact ⟨List.drop_left' rfl, by simp⟩

theorem idxOf_split {l l' : List ℕ} (hn : order.Nodup) (h : order = l ++ b :: l') :
    order.idxOf b = l.length := by
  have hb : b ∉ l := by
    rw [h] at hn
    exact fun hb => List.disjoint_of_nodup_append hn hb List.mem_cons_self
  rw [h, List.idxOf_append_of_notMem hb, List.idxOf_cons_self, Nat.add_zero]

theorem ifElse_nodup {A B C : List ℕ} (h : (s :: (A ++ B ++ C)).Nodup) :
    A.Nodup ∧ B.Nodup ∧ C.Nodup ∧ s ∉ C := by
  grind

theorem forLoop_nodup {A C : List ℕ} (h : (s :: (A ++ C)).Nodup) :
    A.Nodup ∧ C.Nodup ∧ s ∉ C := by
  grind

namespace Inv

theorem init (h : Layout σ₀ order) : Inv σ₀ order 0 σ₀ where
  kind _ := rfl
  edges := List.Subset.refl _
  pending _ _ _ := rfl
  home c hc s hs := by
    rw [h.parent c s hs]
    exact ⟨hc, hs, Nat.le_refl _⟩
  standing := h.standing
  together c c' s hs s' hs' heq _ := by rw [← h.parent c s hs, heq, h.parent c' s' hs']
  undeleted := h.undeleted

theorem mono (h : Inv σ₀ order k σ) {k' : ℕ} (hk : k ≤ k') : Inv σ₀ order k' σ :=
  ⟨h.kind, h.edges, fun c hc hk' => h.pending c hc (le_trans hk hk'), h.home, h.standing,
    h.together, h.undeleted⟩

/-- A block that is to come holds its own statements alone. -/
theorem home_of_pending (h : Inv σ₀ order k σ) (hl : Layout σ₀ order) (hc : c ∈ order)
    (hk : k ≤ order.idxOf c) (hs : s ∈ σ.stms c) : σ₀.parent s = c := by
  rw [h.pending c hc hk] at hs
  exact hl.parent c s hs

/-- A removal that stays with the blocks that are through. -/
theorem removal (h : Inv σ₀ order k σ) (hr : Removal X σ σ')
    (hX : ∀ x c, X x → c ∈ order → x ∈ σ.stms c → order.idxOf c < k) : Inv σ₀ order k σ' where
  kind s := (hr.kind s).trans (h.kind s)
  edges := List.Subset.trans hr.edges h.edges
  pending c hc hk := by
    rw [hr.stms_eq fun x hx hXx => ?_, h.pending c hc hk]
    have hlt := hX x c hXx hc hx
    omega
  home c hc s hs := h.home c hc s ((hr.sub c).subset hs)
  standing e he := by
    rw [hr.parent]
    exact hr.standing e he _ (h.standing e (hr.edges he))
  together c c' s hs s' hs' := h.together c c' s ((hr.sub c).subset hs) s' ((hr.sub c').subset hs')
  undeleted e he c hc := h.undeleted e (hr.edges he) c (hr.deleted e he c hc)

/-- What is inside a statement of a block is from blocks through no later. -/
theorem inside (h : Inv σ₀ order k σ) (hl : Layout σ₀ order) {j : ℕ}
    (hs : σ₀.parent s ∈ order ∧ s ∈ σ₀.stms (σ₀.parent s) ∧ order.idxOf (σ₀.parent s) ≤ j) :
    ∀ t ∈ σ.inside n s, σ₀.parent t ∈ order ∧ order.idxOf (σ₀.parent t) ≤ j := by
  induction n generalizing s j with
  | zero =>
    intro t ht
    obtain rfl := List.mem_singleton.mp ht
    exact ⟨hs.1, hs.2.2⟩
  | succ n ih =>
    intro t ht
    rw [Pruning.inside] at ht
    rcases List.mem_cons.mp ht with rfl | ht
    · exact ⟨hs.1, hs.2.2⟩
    · obtain ⟨c, hc, ht⟩ := List.mem_flatMap.mp ht
      obtain ⟨u, hu, ht⟩ := List.mem_flatMap.mp ht
      rw [h.kind] at hc
      obtain ⟨hcm, hlt⟩ := hl.nests _ hs.1 s hs.2.1 c hc
      obtain ⟨hum, hus, hle⟩ := h.home c hcm u hu
      exact ih ⟨hum, hus, by omega⟩ t ht

/-- What goes with a statement of a block that is through. -/
theorem falls_lt (h : Inv σ₀ order k σ) (hl : Layout σ₀ order) (ho : Ordered σ₀ order) {x : ℕ}
    (hs : order.idxOf (σ₀.parent s) < k)
    (hx : Falls σ₀.edges (fun t => σ₀.parent t ∈ order ∧
      order.idxOf (σ₀.parent t) ≤ order.idxOf (σ₀.parent s)) s x)
    (hc : c ∈ order) (hxc : x ∈ σ.stms c) : order.idxOf c < k := by
  by_contra hk
  have hhome := h.home_of_pending hl hc (by omega) hxc
  rcases hx with rfl | ⟨t, ⟨htm, hle⟩, hlead⟩
  · rw [hhome] at hs
    omega
  · have hle' := ho x t hlead (hhome ▸ hc) htm
    rw [hhome] at hle'
    omega

/-- **Removing a statement of a block that is through.** -/
theorem removeStmt (h : Inv σ₀ order k σ) (hl : Layout σ₀ order) (ho : Ordered σ₀ order)
    (hsm : σ₀.parent s ∈ order) (hs : s ∈ σ₀.stms (σ₀.parent s))
    (hk : order.idxOf (σ₀.parent s) < k) :
    Inv σ₀ order k (σ.removeStmt n b s) ∧
      Removal (Falls σ₀.edges (fun t => σ₀.parent t ∈ order ∧
        order.idxOf (σ₀.parent t) ≤ order.idxOf (σ₀.parent s)) s) σ (σ.removeStmt n b s) := by
  have hgoto : ∀ e ∈ σ₀.edges, (σ.kind e.1).blocks = [] := by
    intro e he
    obtain ⟨test, hk⟩ := hl.gotos e he
    rw [h.kind, hk]
    rfl
  have hr := removeStmt_removal (n := n) (b := b) h.edges hgoto
    (h.inside (n := n) hl ⟨hsm, hs, Nat.le_refl _⟩)
  exact ⟨h.removal hr fun x c hx hc hxc => h.falls_lt hl ho hk hx hc hxc, hr⟩

/-- What may go when the statements `del` do: these, and gotos. -/
def MayGo (σ₀ : Pruning M) (del : List ℕ) (x : ℕ) : Prop :=
  x ∈ del ∨ ∃ test dest, σ₀.kind x = .goto test dest

theorem removeStmts (h : Inv σ₀ order k σ) (hl : Layout σ₀ order) (ho : Ordered σ₀ order)
    {del : List ℕ} (hdel : ∀ s ∈ del, s ∈ σ₀.stms b) (hb : b ∈ order)
    (hk : order.idxOf b < k) :
    Inv σ₀ order k (σ.removeStmts n b del) ∧
      Removal (MayGo σ₀ del) σ (σ.removeStmts n b del) := by
  induction del generalizing σ with
  | nil => exact ⟨h, .refl _ _⟩
  | cons s del ih =>
    have hs := hdel s List.mem_cons_self
    have hp := hl.parent b s hs
    obtain ⟨h₁, hr₁⟩ := h.removeStmt (n := n) (b := b) (s := s) hl ho (hp.symm ▸ hb)
      (hp.symm ▸ hs) (hp.symm ▸ hk)
    obtain ⟨h₂, hr₂⟩ := ih h₁ fun u hu => hdel u (List.mem_cons_of_mem _ hu)
    refine ⟨h₂, (hr₁.mono ?_).trans (hr₂.mono ?_)⟩
    · rintro x (rfl | ⟨t, -, hlead⟩)
      · exact .inl List.mem_cons_self
      · obtain ⟨d, hd⟩ := exists_edge_of_leads hlead
        obtain ⟨test, hkind⟩ := hl.gotos _ hd
        exact .inr ⟨test, d, hkind⟩
    · rintro x (hx | hx)
      · exact .inl (List.mem_cons_of_mem _ hx)
      · exact .inr hx

/-- **A block merged** into one that is through no earlier. -/
theorem mergeBlock {position : ℕ} (h : Inv σ₀ order k σ) (hb : b ∈ order) (hc : c ∈ order)
    (hcb : order.idxOf c < order.idxOf b) (hk : order.idxOf b < k) :
    Inv σ₀ order k (σ.mergeBlock position b c).1 := by
  have hbc : b ≠ c := by
    rintro rfl
    exact Nat.lt_irrefl _ hcb
  have hmem : ∀ d, ∀ s ∈ (σ.mergeBlock position b c).1.stms d,
      (s ∈ σ.stms d ∧ d ≠ c) ∨ (d = b ∧ s ∈ σ.stms c) := by
    intro d s hs
    rw [mergeBlock_stms hbc] at hs
    split at hs
    · cases hs
    · next hdc =>
      split at hs
      · next hdb =>
        subst hdb
        rcases List.mem_append.mp hs with hs | hs
        · rcases List.mem_append.mp hs with hs | hs
          · exact .inl ⟨List.mem_of_mem_take hs, hdc⟩
          · exact .inr ⟨rfl, hs⟩
        · exact .inl ⟨List.mem_of_mem_drop hs, hdc⟩
      · exact .inl ⟨hs, hdc⟩
  have hframe : Frame [b, c] σ (σ.mergeBlock position b c).1 := mergeBlock_frame hbc
  refine ⟨fun s => (hframe.kind s).trans (h.kind s), h.edges, fun d hd hdk => ?_,
    fun d hd s hs => ?_,
    fun e he => ?_, fun d d' s hs s' hs' heq ho => ?_, fun e he d hd => ?_⟩
  · have hne : d ∉ [b, c] := by
      intro hmem
      rcases List.mem_cons.mp hmem with rfl | hmem
      · omega
      · obtain rfl := List.mem_singleton.mp hmem
        omega
    rw [hframe.stms d hne, h.pending d hd hdk]
  · rcases hmem d s hs with ⟨hsd, -⟩ | ⟨rfl, hsc⟩
    · exact h.home d hd s hsd
    · obtain ⟨hm, hs', hle⟩ := h.home c hc s hsc
      exact ⟨hm, hs', by omega⟩
  · -- a goto moves with its block, and its parent says so
    have hp := h.standing e he
    have hparent : (σ.mergeBlock position b c).1.parent e.1 =
        if e.1 ∈ σ.stms c ++ σ.deleted c then b else σ.parent e.1 := by
      unfold parent Pruning.mergeBlock
      by_cases hm : e.1 ∈ σ.stms c ++ σ.deleted c <;> simp [hm]
    rw [hparent]
    split
    · next hm =>
      have hm' : e.1 ∈ σ.stms c :=
        (List.mem_append.mp hm).resolve_right (h.undeleted e he c)
      rw [mergeBlock_stms hbc, if_neg hbc, if_pos rfl]
      simp [hm']
    · next hm =>
      have hpc : σ.parent e.1 ≠ c := by
        rintro rfl
        exact hm (List.mem_append_left _ hp)
      rw [mergeBlock_stms hbc, if_neg hpc]
      split
      · next hpb =>
        rw [hpb] at hp
        have hsplit := List.take_append_drop position (σ.stms b)
        rw [← hsplit] at hp
        simp only [List.mem_append] at hp ⊢
        tauto
      · exact hp
  · rcases hmem d s hs with ⟨hsd, hdc⟩ | ⟨hdb, hsc⟩
    · rcases hmem d' s' hs' with ⟨hsd', hdc'⟩ | ⟨hdb', hsc'⟩
      · exact h.together d d' s hsd s' hsd' heq ho
      · exact absurd (h.together d c s hsd s' hsc' heq ho) hdc
    · rcases hmem d' s' hs' with ⟨hsd', hdc'⟩ | ⟨hdb', hsc'⟩
      · exact absurd (h.together c d' s hsc s' hsd' heq ho).symm hdc'
      · exact hdb.trans hdb'.symm
  · change e.1 ∈ Function.update (Function.update σ.deleted b (σ.deleted b ++ σ.deleted c)) c [] d
      at hd
    by_cases hdc : d = c
    · subst hdc
      rw [Function.update_self] at hd
      cases hd
    · rw [Function.update_of_ne hdc] at hd
      by_cases hdb : d = b
      · subst hdb
        rw [Function.update_self] at hd
        rcases List.mem_append.mp hd with hd | hd
        · exact h.undeleted e he _ hd
        · exact h.undeleted e he _ hd
      · rw [Function.update_of_ne hdb] at hd
        exact h.undeleted e he d hd

/-- The breaks and continues of a block removed: nothing else goes with
them. -/
theorem removeJumps (h : Inv σ₀ order k σ) (hl : Layout σ₀ order) (ho : Ordered σ₀ order)
    {del : List ℕ} (hc : c ∈ order) (hk : order.idxOf c < k)
    (hdel : ∀ s ∈ del, isBreakContinue (σ₀.kind s) = true ∧ σ₀.parent s ∈ order ∧
      s ∈ σ₀.stms (σ₀.parent s) ∧ order.idxOf (σ₀.parent s) ≤ order.idxOf c ∧
      ∀ d, ∀ x ∈ σ.stms d, σ₀.parent x = σ₀.parent s → d = c) :
    Inv σ₀ order k (σ.removeStmts n c del) ∧
      ∀ d ∈ order, order.idxOf c < order.idxOf d → (σ.removeStmts n c del).stms d = σ.stms d := by
  induction del generalizing σ with
  | nil => exact ⟨h, fun _ _ _ => rfl⟩
  | cons s del ih =>
    obtain ⟨hbc, hsm, hs, hle, honly⟩ := hdel s List.mem_cons_self
    have hblocks : (σ.kind s).blocks = [] := by
      rw [h.kind]
      cases hkind : σ₀.kind s with
      | brk test => rfl
      | cont test => rfl
      | _ =>
        rw [hkind] at hbc
        cases hbc
    obtain ⟨h₁, -⟩ := h.removeStmt (n := n) (b := c) hl ho hsm hs (by omega)
    have hgoto : ∀ e ∈ σ₀.edges, (σ.kind e.1).blocks = [] := by
      intro e he
      obtain ⟨test, hk⟩ := hl.gotos e he
      rw [h.kind, hk]
      rfl
    have hr := removeStmt_removal (n := n) (b := c) (S := fun t => t = s) h.edges hgoto
      fun t ht => by
        rw [inside_of_blocks_nil hblocks] at ht
        exact List.mem_singleton.mp ht
    have hsame : ∀ d ∈ order, order.idxOf c < order.idxOf d →
        (σ.removeStmt n c s).stms d = σ.stms d := by
      intro d hd hlt
      refine hr.stms_eq fun x hx hfall => ?_
      have hxs : σ₀.parent x = σ₀.parent s := by
        rcases hfall with rfl | ⟨t, rfl, hlead⟩
        · rfl
        · -- nothing goes with a break or continue
          obtain ⟨g, hedge⟩ := exists_edge_to_of_leads hlead
          exact absurd (hl.targets _ hedge) (by rw [hbc]; exact Bool.noConfusion)
      obtain rfl := honly d x hx hxs
      exact Nat.lt_irrefl _ hlt
    obtain ⟨h₂, hsame₂⟩ := ih h₁ fun u hu => by
      obtain ⟨hu₁, hu₂, hu₃, hu₄, hu₅⟩ := hdel u (List.mem_cons_of_mem _ hu)
      exact ⟨hu₁, hu₂, hu₃, hu₄, fun d x hx => hu₅ d x ((hr.sub d).subset hx)⟩
    exact ⟨h₂, fun d hd hlt => (hsame₂ d hd hlt).trans (hsame d hd hlt)⟩

/-- The loop of `RemoveBreakContinue` leaves the block it runs over. -/
theorem clearBranches (h : Inv σ₀ order k σ) (hl : Layout σ₀ order)
    {clear : ℕ → Pruning M → Option (Pruning M)} {live l : List ℕ} {m : ℕ}
    (hclear : ∀ (σ : Pruning M) c, Inv σ₀ order k σ → c ∈ order → order.idxOf c < k →
      order.idxOf c < m → ∃ σ', clear c σ = some σ' ∧ Inv σ₀ order k σ' ∧
        ∀ d ∈ order, order.idxOf c < order.idxOf d → σ'.stms d = σ.stms d)
    (hc : c ∈ order) (hk : order.idxOf c < k) (hm : order.idxOf c ≤ m) (hlive : σ.stms c = live)
    (hsub : ∀ s ∈ l, s ∈ live) :
    ∃ σ', Pruning.clearBranches clear c live l σ = some σ' ∧ Inv σ₀ order k σ' ∧
      ∀ d ∈ order, order.idxOf c ≤ order.idxOf d → σ'.stms d = σ.stms d := by
  induction l generalizing σ with
  | nil => exact ⟨σ, rfl, h, fun _ _ _ => rfl⟩
  | cons s l ih =>
    have hsub' : ∀ u ∈ l, u ∈ live := fun u hu => hsub u (List.mem_cons_of_mem _ hu)
    have hsc : s ∈ σ.stms c := by
      rw [hlive]
      exact hsub s List.mem_cons_self
    rw [Pruning.clearBranches]
    split
    · next test t e hkind =>
      obtain ⟨hsm, hs, hle⟩ := h.home c hc s hsc
      have hkind₀ : (σ₀.kind s).blocks = [t, e] := by rw [← h.kind, hkind]; rfl
      obtain ⟨htm, htlt⟩ := hl.nests _ hsm s hs t (by simp [hkind₀])
      obtain ⟨hem, helt⟩ := hl.nests _ hsm s hs e (by simp [hkind₀])
      obtain ⟨σ₁, hrun₁, h₁, hsame₁⟩ := hclear σ t h htm (by omega) (by omega)
      obtain ⟨σ₂, hrun₂, h₂, hsame₂⟩ := hclear σ₁ e h₁ hem (by omega) (by omega)
      have hsame : ∀ d ∈ order, order.idxOf c ≤ order.idxOf d → σ₂.stms d = σ.stms d :=
        fun d hd hcd => (hsame₂ d hd (by omega)).trans (hsame₁ d hd (by omega))
      have hlive₂ : σ₂.stms c = live := (hsame c hc (Nat.le_refl _)).trans hlive
      obtain ⟨σ₃, hrun₃, h₃, hsame₃⟩ := ih h₂ hlive₂ hsub'
      refine ⟨σ₃, ?_, h₃, fun d hd hcd => (hsame₃ d hd hcd).trans (hsame d hd hcd)⟩
      have hun : σ₂.unchanged c live = some () := if_pos hlive₂
      simp only [hrun₁, hrun₂, hun, hrun₃, Option.bind_eq_bind, Option.bind_some]
    · exact ih h hlive hsub'

/-- **`RemoveBreakContinue`** runs through, and leaves the blocks after its own. -/
theorem removeBreakContinue (h : Inv σ₀ order k σ) (hl : Layout σ₀ order)
    (ho : Ordered σ₀ order) (hc : c ∈ order) (hk : order.idxOf c < k) (hn : order.idxOf c < n) :
    ∃ σ', σ.removeBreakContinue n c = some σ' ∧ Inv σ₀ order k σ' ∧
      ∀ d ∈ order, order.idxOf c < order.idxOf d → σ'.stms d = σ.stms d := by
  induction n generalizing σ c with
  | zero => omega
  | succ n ih =>
    obtain ⟨σ₁, hrun, h₁, hsame⟩ := h.clearBranches hl
      (fun σ c h hc hk hm => ih h hc hk hm) hc hk (Nat.lt_succ_iff.mp hn) rfl fun _ hs => hs
    have hstms := hsame c hc (Nat.le_refl _)
    have hdel : ∀ s ∈ (σ.stms c).filter fun s => isBreakContinue (σ.kind s),
        isBreakContinue (σ₀.kind s) = true ∧ σ₀.parent s ∈ order ∧ s ∈ σ₀.stms (σ₀.parent s) ∧
        order.idxOf (σ₀.parent s) ≤ order.idxOf c ∧
        ∀ d, ∀ x ∈ σ₁.stms d, σ₀.parent x = σ₀.parent s → d = c := by
      intro s hs
      obtain ⟨hs, hbc⟩ := List.mem_filter.mp hs
      rw [h.kind] at hbc
      have hs₁ : s ∈ σ₁.stms c := by rwa [hstms]
      obtain ⟨hsm, hs₀, hle⟩ := h₁.home c hc s hs₁
      refine ⟨hbc, hsm, hs₀, hle, fun d x hx heq => ?_⟩
      exact h₁.together d c x hx s hs₁ heq (heq ▸ hsm)
    obtain ⟨h₂, hsame₂⟩ := h₁.removeJumps (n := n + 1) hl ho hc hk hdel
    refine ⟨_, ?_, h₂, fun d hd hlt => (hsame₂ d hd hlt).trans (hsame d hd (Nat.le_of_lt hlt))⟩
    rw [Pruning.removeBreakContinue]
    simp only [hrun, Option.bind_eq_bind, Option.bind_some]

/-- The loop over `lift_stms` finds its statements one after the other. -/
theorem liftStms (inLoop : Bool) {lift : List ℕ} {position : ℕ} (h : Inv σ₀ order k σ)
    (hl : Layout σ₀ order) (ho : Ordered σ₀ order) (hb : b ∈ order) (hk : order.idxOf b < k)
    (hn : order.idxOf b < n) (hlift : lift.Sublist ((σ.stms b).drop position))
    (hcomp : ∀ s ∈ lift, (nested (σ₀.kind s)).isSome = true ∧ s ∈ σ₀.stms b) :
    ∃ σ', Pruning.liftStms n b inLoop lift position σ = some σ' ∧ Inv σ₀ order k σ' := by
  induction lift generalizing σ position with
  | nil => exact ⟨σ, rfl, h⟩
  | cons s rest ih =>
    obtain ⟨p, l, hadv, hdrop, hrest, hp⟩ := exists_advance hlift
    obtain ⟨hnest, hs⟩ := hcomp s List.mem_cons_self
    have hcomp' : ∀ u ∈ rest, (nested (σ₀.kind u)).isSome = true ∧ u ∈ σ₀.stms b :=
      fun u hu => hcomp u (List.mem_cons_of_mem _ hu)
    -- the blocks of what is lifted are through before `b`
    have hblocks : ∀ c ∈ (σ.kind s).blocks, c ∈ order ∧ order.idxOf c < order.idxOf b := by
      rw [h.kind]
      exact hl.nests b hb s hs
    rw [← h.kind] at hnest
    rw [Pruning.liftStms, hadv, Option.bind_eq_bind, Option.bind_some]
    cases hkind : σ.kind s with
    | ifElse test t e =>
      rw [hkind] at hblocks
      obtain ⟨htm, htlt⟩ := hblocks t (by simp [Kind.blocks])
      obtain ⟨hem, helt⟩ := hblocks e (by simp [Kind.blocks])
      have h₁ : Inv σ₀ order k (σ.mergeBlock p b t).1 := h.mergeBlock hb htm htlt hk
      obtain ⟨hd₁, hp₁⟩ := mergeBlock_drop (σ := σ) (c := t) (ne_of_idxOf_lt htlt) hp
      have h₂ : Inv σ₀ order k
          ((σ.mergeBlock p b t).1.mergeBlock (σ.mergeBlock p b t).2 b e).1 :=
        h₁.mergeBlock hb hem helt hk
      obtain ⟨hd₂, -⟩ := mergeBlock_drop (σ := (σ.mergeBlock p b t).1) (c := e)
        (ne_of_idxOf_lt helt) hp₁
      have hrest₂ := hrest.cons s
      rw [← hdrop, ← hd₁, ← hd₂] at hrest₂
      exact ih h₂ hrest₂ hcomp'
    | forLoop init test incr c =>
      rw [hkind] at hblocks
      obtain ⟨hcm, hclt⟩ := hblocks c (by simp [Kind.blocks])
      -- out of all loops, the jumps of the body go before it is merged
      have hclear : ∃ σ', (if inLoop then some σ else σ.removeBreakContinue n c) = some σ' ∧
          Inv σ₀ order k σ' ∧ σ'.stms b = σ.stms b := by
        cases inLoop with
        | true => exact ⟨σ, rfl, h, rfl⟩
        | false =>
          obtain ⟨σ', hrun, h', hsame⟩ := h.removeBreakContinue (n := n) hl ho hcm (by omega)
            (by omega)
          exact ⟨σ', hrun, h', hsame b hb hclt⟩
      obtain ⟨σ₁, hrun, h₁, hstms⟩ := hclear
      have hun : σ₁.unchanged b (σ.stms b) = some () := if_pos hstms
      have h₂ : Inv σ₀ order k (σ₁.mergeBlock p b c).1 := h₁.mergeBlock hb hcm hclt hk
      obtain ⟨hd₂, -⟩ := mergeBlock_drop (σ := σ₁) (c := c) (ne_of_idxOf_lt hclt) (hstms ▸ hp)
      have hrest₂ := hrest.cons s
      rw [← hdrop, ← hstms, ← hd₂] at hrest₂
      simp only [hrun, hun, Option.bind_eq_bind, Option.bind_some]
      exact ih h₂ hrest₂ hcomp'
    | _ =>
      rw [hkind] at hnest
      cases hnest

/-- **The part of `PruneBlock` after its loop** runs through. -/
theorem settle {del lift : List ℕ} (h : Inv σ₀ order k σ) (hl : Layout σ₀ order)
    (ho : Ordered σ₀ order) (hb : b ∈ order) (hk : order.idxOf b < k) (hn : order.idxOf b < n)
    (hdel : ∀ s ∈ del, s ∈ σ₀.stms b) (hlift : lift.Sublist (σ.stms b))
    (hcomp : ∀ s ∈ lift, (nested (σ₀.kind s)).isSome = true ∧ s ∈ σ₀.stms b ∧ s ∉ del) :
    ∃ σ', σ.settle n b del lift = some σ' ∧ Inv σ₀ order k σ' := by
  obtain ⟨h₁, hr₁⟩ := h.removeStmts (n := n) hl ho hdel hb hk
  have hlift₁ : lift.Sublist (((σ.removeStmts n b del).stms b).drop 0) := by
    refine hr₁.keep b lift hlift ?_
    rintro x hx (hxdel | ⟨test, dest, hkind⟩)
    · exact (hcomp x hx).2.2 hxdel
    · have hnest := (hcomp x hx).1
      rw [hkind] at hnest
      cases hnest
  obtain ⟨σ₂, hrun, h₂⟩ := h₁.liftStms ((σ.removeStmts n b del).inLoop b)
    hl ho hb hk hn hlift₁ fun s hs => ⟨(hcomp s hs).1, (hcomp s hs).2.1⟩
  obtain ⟨h₃, -⟩ := h₂.removeStmts (n := n) hl ho (fun s hs => (hcomp s hs).2.1) hb hk
  refine ⟨_, ?_, h₃⟩
  unfold Pruning.settle
  simp only [hrun, Option.bind_eq_bind, Option.bind_some]

/-- What the loop returns, where it has drawn all but `t'` of the tape. -/
def Visited (σ₀ : Pruning M) (order : List ℕ) (k : ℕ) (roots : List ℕ) (t' : Tape)
    (r : Option ((Pruning M × List ℕ × List ℕ) × Tape)) : Prop :=
  ∃ σ' del lift, r = some ((σ', del, lift), t') ∧ Inv σ₀ order k σ' ∧ del.Sublist roots ∧
    lift.Sublist roots ∧ ∀ s ∈ lift, (nested (σ₀.kind s)).isSome = true ∧ s ∉ del

/-- A compound statement has its two coins after its blocks. -/
theorem Visited.compound {p : Probs} {pr : ℕ → Pruning M → Gen (Pruning M)} {blks live l : List ℕ}
    {σ₁ : Pruning M} {tape t' : Tape} {m : ℕ} (hs : s ∉ l) (hkind : σ.kind s = σ₀.kind s)
    (hnest : nested (σ.kind s) = some blks)
    (hblks : blks.foldlM (fun σ c => pr c σ) σ tape = some (σ₁, tape.drop m))
    (hun : σ₁.unchanged b live = some ()) (hm : m + 2 ≤ tape.length)
    (hrest : Visited σ₀ order k l t' (Pruning.visitStms p pr b live l σ₁ (tape.drop (m + 2)))) :
    Visited σ₀ order k (s :: l) t' (Pruning.visitStms p pr b live (s :: l) σ tape) := by
  obtain ⟨σ', del, lift, hrun, h', hdel, hlift, hcomp⟩ := hrest
  obtain ⟨doCompound, hc⟩ := rndFlipcoin_total p.compound (t := tape.drop m)
    (by rw [List.length_drop]; omega)
  obtain ⟨doLift, hl⟩ := rndFlipcoin_total p.liftAdj (t := (tape.drop m).drop 1)
    (by rw [List.length_drop, List.length_drop]; omega)
  -- both coins are flipped, whatever the first decides
  have htwo : ((tape.drop m).drop 1).drop 1 = tape.drop (m + 2) := by
    rw [List.drop_drop, List.drop_drop]
  rw [htwo] at hl
  refine ⟨σ', if doCompound then s :: del else del,
    if !doCompound && doLift then s :: lift else lift, ?_, h', ?_, ?_, fun u hu => ?_⟩
  · rw [Pruning.visitStms, hnest]
    refine Gen.bind_eq_some.mpr ⟨σ₁, _, hblks, Gen.bind_eq_some.mpr ⟨(), tape.drop m, ?_,
      Gen.bind_eq_some.mpr ⟨doCompound, _, hc, Gen.bind_eq_some.mpr ⟨doLift, _, hl,
        Gen.bind_eq_some.mpr ⟨_, _, hrun, rfl⟩⟩⟩⟩⟩
    rw [hun]
    rfl
  · cases doCompound with
    | true => exact hdel.cons_cons s
    | false => exact hdel.cons s
  · cases doCompound with
    | true => exact hlift.cons s
    | false =>
      cases doLift with
      | true => exact hlift.cons_cons s
      | false => exact hlift.cons s
  · have hsdel : s ∉ del := fun hm => hs (hdel.subset hm)
    have hin : ∀ v ∈ lift, v ≠ s := by
      rintro v hv rfl
      exact hs (hlift.subset hv)
    cases doCompound with
    | true =>
      exact ⟨(hcomp u hu).1, fun hm => (List.mem_cons.mp hm).elim (hin u hu) (hcomp u hu).2⟩
    | false =>
      cases doLift with
      | false => exact hcomp u hu
      | true =>
        rcases List.mem_cons.mp hu with rfl | hu
        · refine ⟨?_, hsdel⟩
          rw [← hkind, hnest]
          rfl
        · exact hcomp u hu

/-- **The loop of `PruneBlock`** draws one coin for a leaf and two for a
compound statement, where the pruning of the nested blocks does. -/
theorem visitStms {p : Probs} {pr : ℕ → Pruning M → Gen (Pruning M)} {R : Stms ℕ ℕ}
    {pre post live : List ℕ} {tape : Tape}
    (hpr : ∀ (σ : Pruning M) c U pre post (tape : Tape), order = pre ++ (U.blocks ++ c :: post) →
      Inv σ₀ order pre.length σ → σ₀.stms c = U.roots → σ₀.Holds U → U.preorder.Nodup →
      order.idxOf c < n → cost U ≤ tape.length →
      ∃ σ', pr c σ tape = some (σ', tape.drop (cost U)) ∧
        Inv σ₀ order (pre.length + U.blocks.length + 1) σ')
    (h : Inv σ₀ order pre.length σ) (hl : Layout σ₀ order)
    (horder : order = pre ++ (R.blocks ++ post)) (hb : b ∈ order)
    (hbk : pre.length + R.blocks.length ≤ order.idxOf b) (hbn : order.idxOf b ≤ n)
    (hlive : σ₀.stms b = live) (hholds : σ₀.Holds R) (hids : R.preorder.Nodup)
    (htape : cost R ≤ tape.length) :
    Visited σ₀ order (pre.length + R.blocks.length) R.roots (tape.drop (cost R))
      (Pruning.visitStms p pr b live R.roots σ tape) := by
  induction R generalizing σ pre tape with
  | nil => exact ⟨σ, [], [], rfl, h, List.Sublist.refl _, List.Sublist.refl _, fun _ h => nomatch h⟩
  | leaf s rest ih =>
    have hkind : nested (σ.kind s) = none := (h.kind s).symm ▸ hholds.1
    rw [cost] at htape
    obtain ⟨doLeaf, hcoin⟩ := rndFlipcoin_total p.leaf (t := tape) (by omega)
    obtain ⟨hs, hids⟩ := List.nodup_cons.mp hids
    have htape' : cost rest ≤ (tape.drop 1).length := by
      rw [List.length_drop]
      omega
    obtain ⟨σ', del, lift, hrun, h', hdel, hlift, hcomp⟩ := ih h horder hbk hholds.2 hids htape'
    rw [List.drop_drop] at hrun
    refine ⟨σ', if doLeaf then s :: del else del, lift, ?_, h', ?_, hlift.cons s, fun u hu =>
      ⟨(hcomp u hu).1, ?_⟩⟩
    · rw [Stms.roots, Pruning.visitStms, hkind]
      exact Gen.bind_eq_some.mpr ⟨doLeaf, _, hcoin, Gen.bind_eq_some.mpr ⟨_, _, hrun, rfl⟩⟩
    · cases doLeaf with
      | true => exact hdel.cons_cons s
      | false => exact hdel.cons s
    · have hus : u ≠ s := by
        rintro rfl
        exact hs (Stms.mem_preorder_of_mem_roots (hlift.subset hu))
      cases doLeaf with
      | true => exact fun hm => (List.mem_cons.mp hm).elim hus (hcomp u hu).2
      | false => exact (hcomp u hu).2
  | ifElse s t e T E rest _ _ ih =>
    obtain ⟨⟨test, hkind⟩, ht, he, hT, hE, hrest⟩ := hholds
    rw [← h.kind] at hkind
    rw [cost] at htape ⊢
    rw [Stms.preorder] at hids
    obtain ⟨hidsT, hidsE, hidsR, hsR⟩ := ifElse_nodup hids
    rw [Stms.blocks] at horder hbk ⊢
    have hnd := hl.nodup
    -- the true block, the false block, and what comes after the statement
    have hordT : order = pre ++ (T.blocks ++ t :: (E.blocks ++ e :: rest.blocks ++ post)) := by
      rw [horder]
      simp only [List.append_assoc, List.cons_append]
    have hordE : order = (pre ++ T.blocks ++ [t]) ++ (E.blocks ++ e :: (rest.blocks ++ post)) := by
      rw [horder]
      simp only [List.append_assoc, List.cons_append, List.nil_append]
    have hordR : order = (pre ++ T.blocks ++ [t] ++ E.blocks ++ [e]) ++ (rest.blocks ++ post) := by
      rw [horder]
      simp only [List.append_assoc, List.cons_append, List.nil_append]
    have hidxT : order.idxOf t = (pre ++ T.blocks).length :=
      idxOf_split hnd (hordT.trans (List.append_assoc _ _ _).symm)
    have hidxE : order.idxOf e = (pre ++ T.blocks ++ [t] ++ E.blocks).length :=
      idxOf_split hnd (hordE.trans (List.append_assoc _ _ _).symm)
    simp only [List.length_append, List.length_cons, List.length_nil] at hidxT hidxE hbk
    obtain ⟨σ₁, hrun₁, h₁⟩ := hpr σ t T pre _ tape hordT h ht hT hidsT (by omega) (by omega)
    have hlen₁ : pre.length + T.blocks.length + 1 = (pre ++ T.blocks ++ [t]).length := by
      simp only [List.length_append, List.length_cons, List.length_nil]
    rw [hlen₁] at h₁
    obtain ⟨σ₂, hrun₂, h₂⟩ := hpr σ₁ e E _ _ (tape.drop (cost T)) hordE h₁ he hE hidsE
      (by omega) (by rw [List.length_drop]; omega)
    have hlen₂ : (pre ++ T.blocks ++ [t]).length + E.blocks.length + 1 =
        (pre ++ T.blocks ++ [t] ++ E.blocks ++ [e]).length := by
      simp only [List.length_append, List.length_cons, List.length_nil]
    rw [hlen₂] at h₂
    rw [List.drop_drop] at hrun₂
    have htape' : cost rest ≤ (tape.drop (cost T + cost E + 2)).length := by
      rw [List.length_drop]
      omega
    have hrest' := ih h₂ hordR
      (by simp only [List.length_append, List.length_cons, List.length_nil]; omega) hrest
      hidsR htape'
    rw [List.drop_drop] at hrest'
    have hlive₂ : σ₂.stms b = live := by
      rw [h₂.pending b hb
        (by simp only [List.length_append, List.length_cons, List.length_nil]; omega), hlive]
    have hs : s ∉ rest.roots := fun hs => hsR (Stms.mem_preorder_of_mem_roots hs)
    have hk : pre.length + (T.blocks.length + (E.blocks.length + (rest.blocks.length + 1) + 1)) =
        (pre ++ T.blocks ++ [t] ++ E.blocks ++ [e]).length + rest.blocks.length := by
      simp only [List.length_append, List.length_cons, List.length_nil]
      omega
    simp only [List.length_append, List.length_cons]
    rw [hk]
    have hnest : nested (σ.kind s) = some [t, e] := by rw [hkind]; rfl
    refine Visited.compound hs (h.kind s) hnest ?_
      (if_pos hlive₂) (by omega) hrest'
    rw [List.foldlM_cons]
    refine Gen.bind_eq_some.mpr ⟨σ₁, _, hrun₁, ?_⟩
    rw [List.foldlM_cons]
    exact Gen.bind_eq_some.mpr ⟨σ₂, _, hrun₂, rfl⟩
  | forLoop s c B rest _ ih =>
    obtain ⟨⟨i, cond, incr, hkind⟩, hc, hB, hrest⟩ := hholds
    rw [← h.kind] at hkind
    rw [cost] at htape ⊢
    rw [Stms.preorder] at hids
    obtain ⟨hidsB, hidsR, hsR⟩ := forLoop_nodup hids
    rw [Stms.blocks] at horder hbk ⊢
    have hordB : order = pre ++ (B.blocks ++ c :: (rest.blocks ++ post)) := by
      rw [horder]
      simp only [List.append_assoc, List.cons_append]
    have hordR : order = (pre ++ B.blocks ++ [c]) ++ (rest.blocks ++ post) := by
      rw [horder]
      simp only [List.append_assoc, List.cons_append, List.nil_append]
    have hidx : order.idxOf c = (pre ++ B.blocks).length :=
      idxOf_split hl.nodup (hordB.trans (List.append_assoc _ _ _).symm)
    have hlen : (pre ++ B.blocks ++ [c]).length = pre.length + B.blocks.length + 1 := by
      simp only [List.length_append, List.length_cons, List.length_nil]
    simp only [List.length_append, List.length_cons] at hidx hbk ⊢
    obtain ⟨σ₁, hrun₁, h₁⟩ := hpr σ c B pre _ tape hordB h hc hB hidsB (by omega) (by omega)
    rw [← hlen] at h₁
    have htape' : cost rest ≤ (tape.drop (cost B + 2)).length := by
      rw [List.length_drop]
      omega
    have hrest' := ih h₁ hordR (by omega) hrest hidsR htape'
    rw [List.drop_drop] at hrest'
    have hlive₁ : σ₁.stms b = live := by rw [h₁.pending b hb (by omega), hlive]
    have hs : s ∉ rest.roots := fun hs => hsR (Stms.mem_preorder_of_mem_roots hs)
    have hk : pre.length + (B.blocks.length + (rest.blocks.length + 1)) =
        (pre ++ B.blocks ++ [c]).length + rest.blocks.length := by
      omega
    rw [hk]
    have hnest : nested (σ.kind s) = some [c] := by rw [hkind]; rfl
    refine Visited.compound hs (h.kind s) hnest ?_ (if_pos hlive₁) (by omega) hrest'
    rw [List.foldlM_cons]
    exact Gen.bind_eq_some.mpr ⟨σ₁, _, hrun₁, rfl⟩

/-- **`PruneBlock` runs through**, and draws what the block costs. -/
theorem pruneBlock {p : Probs} {T : Stms ℕ ℕ} {pre post : List ℕ} {tape : Tape}
    (h : Inv σ₀ order pre.length σ) (hl : Layout σ₀ order) (ho : Ordered σ₀ order)
    (horder : order = pre ++ (T.blocks ++ b :: post)) (hstms : σ₀.stms b = T.roots)
    (hholds : σ₀.Holds T) (hids : T.preorder.Nodup) (hn : order.idxOf b < n)
    (htape : cost T ≤ tape.length) :
    ∃ σ', Pruning.pruneBlock p n b σ tape = some (σ', tape.drop (cost T)) ∧
      Inv σ₀ order (pre.length + T.blocks.length + 1) σ' := by
  induction n generalizing σ b T pre post tape with
  | zero => omega
  | succ n ih =>
    have hidx : order.idxOf b = pre.length + T.blocks.length := by
      rw [idxOf_split hl.nodup (horder.trans (List.append_assoc _ _ _).symm), List.length_append]
    have hb : b ∈ order := by
      rw [horder]
      simp
    obtain ⟨σ₁, del, lift, hrun, h₁, hdel, hlift, hcomp⟩ := Inv.visitStms (p := p)
      (fun σ c U pre post tape ho' h hs hh hi hn ht => ih h ho' hs hh hi hn ht) h hl horder hb
      (by omega) (Nat.lt_succ_iff.mp hn) hstms hholds hids htape
    have hb₁ : σ₁.stms b = T.roots := by rw [h₁.pending b hb (by omega), hstms]
    obtain ⟨σ₂, hset, h₂⟩ := (h₁.mono (Nat.le_succ _)).settle (n := n + 1) (b := b) hl ho hb
      (by omega) (by omega) (fun s hs => by rw [hstms]; exact hdel.subset hs) (by rwa [hb₁])
      fun s hs => ⟨(hcomp s hs).1, by rw [hstms]; exact hlift.subset hs, (hcomp s hs).2⟩
    refine ⟨σ₂, ?_, h₂⟩
    rw [Pruning.pruneBlock, h.pending b hb (by omega), hstms]
    refine Gen.bind_eq_some.mpr ⟨_, _, hrun, ?_⟩
    show Gen.ofOption (σ₁.settle (n + 1) b del lift) _ = _
    rw [hset]
    rfl

end Inv

/-! ## The blocks of a section in their order -/

theorem idxOf_lt_of_sublist {l : List ℕ} (hn : l.Nodup) (h : [d, c].Sublist l) :
    d ∈ l ∧ l.idxOf d < l.idxOf c := by
  obtain ⟨l₁, l₂, rfl, hd, hc⟩ := List.cons_sublist_iff.mp h
  have hc₂ : c ∈ l₂ := List.singleton_sublist.mp hc
  have hc₁ : c ∉ l₁ := fun hc => List.disjoint_of_nodup_append hn hc hc₂
  refine ⟨List.mem_append_left _ hd, ?_⟩
  have hlt := List.idxOf_lt_length_of_mem hd
  rw [List.idxOf_append_of_mem hd, List.idxOf_append_of_notMem hc₁]
  omega

/-- A statement with no section in it has no blocks but those pruning goes into. -/
theorem blocks_of_nested {K : Kind M} (h : nested K = none) (hemi : ∀ i j t e, K ≠ .emi i j t e) :
    K.blocks = [] := by
  cases K with
  | ifElse test t e => cases h
  | forLoop init test incr b => cases h
  | emi i j t e => exact absurd rfl (hemi i j t e)
  | _ => rfl

section Order

variable {T : Stms ℕ ℕ} (hemi : ∀ s ∈ T.preorder, ∀ i j t e, σ.kind s ≠ .emi i j t e)

include hemi

theorem Holds.mem_blocks (h : σ.Holds T) :
    ∀ s ∈ T.roots, ∀ d ∈ (σ.kind s).blocks, d ∈ T.blocks := by
  induction T with
  | nil => exact fun _ h => nomatch h
  | leaf s rest ih =>
    intro u hu d hd
    rcases List.mem_cons.mp hu with rfl | hu
    · rw [blocks_of_nested h.1 (hemi u List.mem_cons_self)] at hd
      cases hd
    · exact ih (fun v hv => hemi v (List.mem_cons_of_mem _ hv)) h.2 u hu d hd
  | ifElse s t e T E rest _ _ ih =>
    obtain ⟨⟨test, hkind⟩, -, -, -, -, hrest⟩ := h
    intro u hu d hd
    rcases List.mem_cons.mp hu with rfl | hu
    · rw [hkind] at hd
      simp only [Kind.blocks, List.mem_cons, List.not_mem_nil, or_false] at hd
      rw [Stms.blocks]
      rcases hd with rfl | rfl <;> simp
    · have hd' := ih (fun v hv => hemi v (by simp [Stms.preorder, hv])) hrest u hu d hd
      simp [Stms.blocks, hd']
  | forLoop s b B rest _ ih =>
    obtain ⟨⟨i, t, r, hkind⟩, -, -, hrest⟩ := h
    intro u hu d hd
    rcases List.mem_cons.mp hu with rfl | hu
    · rw [hkind] at hd
      simp only [Kind.blocks, List.mem_cons, List.not_mem_nil, or_false] at hd
      rw [Stms.blocks, hd]
      simp
    · have hd' := ih (fun v hv => hemi v (by simp [Stms.preorder, hv])) hrest u hu d hd
      simp [Stms.blocks, hd']

/-- A block comes after the blocks of its statements. -/
theorem Holds.before (h : σ.Holds T) : ∀ c ∈ T.blocks, ∀ s ∈ σ.stms c, ∀ d ∈ (σ.kind s).blocks,
    [d, c].Sublist T.blocks := by
  induction T with
  | nil => exact fun _ h => nomatch h
  | leaf s rest ih => exact ih (fun v hv => hemi v (List.mem_cons_of_mem _ hv)) h.2
  | ifElse s t e T E rest ihT ihE ih =>
    obtain ⟨-, ht, he, hT, hE, hrest⟩ := h
    have hemiT : ∀ v ∈ T.preorder, ∀ i j t e, σ.kind v ≠ .emi i j t e :=
      fun v hv => hemi v (by simp [Stms.preorder, hv])
    have hemiE : ∀ v ∈ E.preorder, ∀ i j t e, σ.kind v ≠ .emi i j t e :=
      fun v hv => hemi v (by simp [Stms.preorder, hv])
    intro c hc u hu d hd
    rw [Stms.blocks] at hc ⊢
    rcases List.mem_append.mp hc with hc | hc
    · exact (ihT hemiT hT c hc u hu d hd).trans (List.sublist_append_left _ _)
    · rcases List.mem_cons.mp hc with rfl | hc
      -- the block of the branch itself stands behind all that are in it
      · rw [ht] at hu
        have hd' := List.singleton_sublist.mpr (hT.mem_blocks hemiT u hu d hd)
        exact hd'.append (List.singleton_sublist.mpr List.mem_cons_self)
      · refine List.Sublist.trans ?_ (List.sublist_append_right _ _)
        refine List.Sublist.cons _ ?_
        rcases List.mem_append.mp hc with hc | hc
        · exact (ihE hemiE hE c hc u hu d hd).trans (List.sublist_append_left _ _)
        · rcases List.mem_cons.mp hc with rfl | hc
          · rw [he] at hu
            have hd' := List.singleton_sublist.mpr (hE.mem_blocks hemiE u hu d hd)
            exact hd'.append (List.singleton_sublist.mpr List.mem_cons_self)
          · exact ((ih (fun v hv => hemi v (by simp [Stms.preorder, hv])) hrest c hc u hu d hd).cons
              e).trans (List.sublist_append_right _ _)
  | forLoop s b B rest ihB ih =>
    obtain ⟨-, hb, hB, hrest⟩ := h
    have hemiB : ∀ v ∈ B.preorder, ∀ i j t e, σ.kind v ≠ .emi i j t e :=
      fun v hv => hemi v (by simp [Stms.preorder, hv])
    intro c hc u hu d hd
    rw [Stms.blocks] at hc ⊢
    rcases List.mem_append.mp hc with hc | hc
    · exact (ihB hemiB hB c hc u hu d hd).trans (List.sublist_append_left _ _)
    · rcases List.mem_cons.mp hc with rfl | hc
      · rw [hb] at hu
        have hd' := List.singleton_sublist.mpr (hB.mem_blocks hemiB u hu d hd)
        exact hd'.append (List.singleton_sublist.mpr List.mem_cons_self)
      · exact ((ih (fun v hv => hemi v (by simp [Stms.preorder, hv])) hrest c hc u hu d hd).cons
          b).trans (List.sublist_append_right _ _)

end Order

end Pruning

end EMI

end CLSmith
