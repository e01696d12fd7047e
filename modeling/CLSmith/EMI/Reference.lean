import CLSmith.Random
import CLSmith.EMI.PruneBlock
/-!
# Pruning as a recursion

What pruning does to a section, on the section as a list of statements: it
goes through the list once, each leaf is deleted or kept, and a compound
statement is deleted, lifted or kept after its blocks are pruned.
-/

namespace CLSmith

namespace EMI

open Common

variable (p : Probs) (jump : ℕ → Bool)

/-- Without the breaks and continues of the loop around it. -/
def dropJumps : Stms ℕ ℕ → Stms ℕ ℕ
  | .nil => .nil
  | .leaf s rest => if jump s then dropJumps rest else .leaf s (dropJumps rest)
  | .ifElse s t e T E rest => .ifElse s t e (dropJumps T) (dropJumps E) (dropJumps rest)
  | .forLoop s b B rest => .forLoop s b B (dropJumps rest)

/-- The breaks and continues of the loop around it. -/
def jumps : Stms ℕ ℕ → List ℕ
  | .nil => []
  | .leaf s rest => if jump s then s :: jumps rest else jumps rest
  | .ifElse _ _ _ T E rest => jumps T ++ jumps E ++ jumps rest
  | .forLoop _ _ _ rest => jumps rest

/-- **The reference recursion**: what is kept, and what is deleted. A loop
that is lifted and is in no other takes its breaks and continues with it. -/
def prune : Bool → Stms ℕ ℕ → Gen (Stms ℕ ℕ × Stms ℕ ℕ)
  | _, .nil => pure (.nil, .nil)
  | inLoop, .leaf s rest => do
    let doLeaf ← rndFlipcoin p.leaf
    let (kept, gone) ← prune inLoop rest
    pure (if doLeaf then (kept, .leaf s gone) else (.leaf s kept, gone))
  | inLoop, .ifElse s t e T E rest => do
    let (T, goneT) ← prune inLoop T
    let (E, goneE) ← prune inLoop E
    let doCompound ← rndFlipcoin p.compound
    let doLift ← rndFlipcoin p.liftAdj
    let (kept, gone) ← prune inLoop rest
    let gone := goneT ++ (goneE ++ gone)
    pure (if doCompound then (kept, .ifElse s t e T E gone)
      else if doLift then (T ++ (E ++ kept), .ifElse s t e .nil .nil gone)
      else (.ifElse s t e T E kept, gone))
  | inLoop, .forLoop s b B rest => do
    let (B, goneB) ← prune true B
    let doCompound ← rndFlipcoin p.compound
    let doLift ← rndFlipcoin p.liftAdj
    let (kept, gone) ← prune inLoop rest
    let gone := goneB ++ gone
    pure (if doCompound then (kept, .forLoop s b B gone)
      else if doLift then
        if inLoop then (B ++ kept, .forLoop s b .nil gone)
        else (dropJumps jump B ++ kept, Stms.leaves (jumps jump B) ++ .forLoop s b .nil gone)
      else (.forLoop s b B kept, gone))

/-! ## What it does -/

variable {p : Probs} {jump : ℕ → Bool} {inLoop : Bool} {T kept gone : Stms ℕ ℕ} {t t' : Tape}

/-- Every break and continue is in a loop. -/
def InLoops (jump : ℕ → Bool) : Bool → Stms ℕ ℕ → Prop
  | _, .nil => True
  | l, .leaf s rest => (jump s = true → l = true) ∧ InLoops jump l rest
  | l, .ifElse _ _ _ T E rest => InLoops jump l T ∧ InLoops jump l E ∧ InLoops jump l rest
  | l, .forLoop _ _ B rest => InLoops jump true B ∧ InLoops jump l rest

theorem InLoops.append {l : Bool} {T U : Stms ℕ ℕ} (hT : InLoops jump l T)
    (hU : InLoops jump l U) : InLoops jump l (T ++ U) := by
  induction T with
  | nil => exact hU
  | leaf s rest ih => exact ⟨hT.1, ih hT.2⟩
  | ifElse s t e T E rest _ _ ih => exact ⟨hT.1, hT.2.1, ih hT.2.2⟩
  | forLoop s b B rest _ ih => exact ⟨hT.1, ih hT.2⟩

theorem inLoops_dropJumps {l : Bool} {T : Stms ℕ ℕ} (h : InLoops jump true T) :
    InLoops jump l (dropJumps jump T) := by
  induction T with
  | nil => trivial
  | leaf s rest ih =>
    rw [dropJumps]
    by_cases hs : jump s = true
    · rw [if_pos hs]
      exact ih h.2
    · rw [if_neg hs]
      exact ⟨fun h => absurd h hs, ih h.2⟩
  | ifElse s t e T E rest ihT ihE ih => exact ⟨ihT h.1, ihE h.2.1, ih h.2.2⟩
  | forLoop s b B rest _ ih => exact ⟨h.1, ih h.2⟩

theorem dropJumps_sublist (jump : ℕ → Bool) (T : Stms ℕ ℕ) :
    (dropJumps jump T).preorder.Sublist T.preorder := by
  induction T with
  | nil => exact List.Sublist.refl _
  | leaf s rest ih =>
    rw [dropJumps]
    by_cases hs : jump s = true
    · rw [if_pos hs]
      exact ih.cons s
    · rw [if_neg hs]
      exact ih.cons_cons s
  | ifElse s t e T E rest ihT ihE ih => exact ((ihT.append ihE).append ih).cons_cons s
  | forLoop s b B rest _ ih => exact (ih.append_left _).cons_cons s

theorem depth_dropJumps (jump : ℕ → Bool) (T : Stms ℕ ℕ) :
    (dropJumps jump T).depth ≤ T.depth := by
  induction T with
  | nil => exact Nat.le_refl _
  | leaf s rest ih =>
    rw [dropJumps]
    split
    · exact ih
    · exact ih
  | ifElse s t e T E rest ihT ihE ih =>
    simp only [dropJumps, Stms.depth]
    omega
  | forLoop s b B rest _ ih =>
    simp only [dropJumps, Stms.depth]
    omega

theorem weigh_dropJumps {γ : Type} [AddCommMonoid γ] (f g : ℕ → γ) (jump : ℕ → Bool)
    (T : Stms ℕ ℕ) :
    (dropJumps jump T).weigh f g + ((jumps jump T).map f).sum = T.weigh f g := by
  induction T with
  | nil => exact add_zero _
  | leaf s rest ih =>
    rw [dropJumps, jumps]
    by_cases hs : jump s = true
    · rw [if_pos hs, if_pos hs, List.map_cons, List.sum_cons, Stms.weigh, ← ih]
      abel
    · rw [if_neg hs, if_neg hs, Stms.weigh, Stms.weigh, ← ih]
      abel
  | ifElse s t e T E rest ihT ihE ih =>
    rw [dropJumps, jumps, Stms.weigh, Stms.weigh, ← ihT, ← ihE, ← ih, List.map_append,
      List.map_append, List.sum_append, List.sum_append]
    abel
  | forLoop s b B rest _ ih =>
    rw [dropJumps, jumps, Stms.weigh, Stms.weigh, ← ih]
    abel

/-- **What is kept and what is deleted** of a list of statements. Nothing is lost or
doubled, what is kept is in the order of the text, and it nests no deeper. -/
structure Split (jump : ℕ → Bool) (inLoop : Bool) (T kept gone : Stms ℕ ℕ) : Prop where
  weigh : ∀ {γ : Type} [AddCommMonoid γ] (f g : ℕ → γ),
    kept.weigh f g + gone.weigh f g = T.weigh f g
  sublist : kept.preorder.Sublist T.preorder
  inLoops : InLoops jump inLoop T → InLoops jump inLoop kept
  depth : kept.depth ≤ T.depth

theorem split_nil : Split jump inLoop .nil .nil .nil where
  weigh _ _ := add_zero _
  sublist := List.Sublist.refl _
  inLoops h := h
  depth := Nat.le_refl _

theorem Split.leaf (h : Split jump inLoop T kept gone) (s : ℕ) (doLeaf : Bool) :
    Split jump inLoop (.leaf s T) (if doLeaf then kept else .leaf s kept)
      (if doLeaf then .leaf s gone else gone) := by
  cases doLeaf with
  | true =>
    refine ⟨fun f g => ?_, h.sublist.cons s, fun hin => h.inLoops hin.2, h.depth⟩
    simp only [Stms.weigh, if_true, ← h.weigh f g]
    abel
  | false =>
    refine ⟨fun f g => ?_, h.sublist.cons_cons s, fun hin => ⟨hin.1, h.inLoops hin.2⟩, h.depth⟩
    simp only [Stms.weigh, Bool.false_eq_true, if_false, ← h.weigh f g]
    abel

section Compound

variable {T' E' B' goneT goneE goneB E B rest : Stms ℕ ℕ} (s c e : ℕ)

theorem Split.ifElse_keep (hT : Split jump inLoop T T' goneT) (hE : Split jump inLoop E E' goneE)
    (h : Split jump inLoop rest kept gone) :
    Split jump inLoop (.ifElse s c e T E rest) (.ifElse s c e T' E' kept)
      (goneT ++ (goneE ++ gone)) := by
  refine ⟨fun f g => ?_, ((hT.sublist.append hE.sublist).append h.sublist).cons_cons s,
    fun hin => ⟨hT.inLoops hin.1, hE.inLoops hin.2.1, h.inLoops hin.2.2⟩, ?_⟩
  · simp only [Stms.weigh, Stms.weigh_append, ← hT.weigh f g, ← hE.weigh f g, ← h.weigh f g]
    abel
  · have hd := hT.depth
    have hd' := hE.depth
    have hd'' := h.depth
    simp only [Stms.depth]
    omega

theorem Split.ifElse_delete (hT : Split jump inLoop T T' goneT) (hE : Split jump inLoop E E' goneE)
    (h : Split jump inLoop rest kept gone) :
    Split jump inLoop (.ifElse s c e T E rest) kept
      (.ifElse s c e T' E' (goneT ++ (goneE ++ gone))) := by
  refine ⟨fun f g => ?_, (h.sublist.trans (List.sublist_append_right _ _)).cons s,
    fun hin => h.inLoops hin.2.2, le_trans h.depth (le_max_right _ _)⟩
  simp only [Stms.weigh, Stms.weigh_append, ← hT.weigh f g, ← hE.weigh f g, ← h.weigh f g]
  abel

theorem Split.ifElse_lift (hT : Split jump inLoop T T' goneT) (hE : Split jump inLoop E E' goneE)
    (h : Split jump inLoop rest kept gone) :
    Split jump inLoop (.ifElse s c e T E rest) (T' ++ (E' ++ kept))
      (.ifElse s c e .nil .nil (goneT ++ (goneE ++ gone))) := by
  refine ⟨fun f g => ?_, ?_, fun hin => (hT.inLoops hin.1).append
    ((hE.inLoops hin.2.1).append (h.inLoops hin.2.2)), ?_⟩
  · simp only [Stms.weigh, Stms.weigh_append, ← hT.weigh f g, ← hE.weigh f g, ← h.weigh f g]
    abel
  · rw [Stms.preorder_append, Stms.preorder_append, ← List.append_assoc]
    exact ((hT.sublist.append hE.sublist).append h.sublist).cons s
  · have hd := hT.depth
    have hd' := hE.depth
    have hd'' := h.depth
    simp only [Stms.depth, Stms.depth_append]
    omega

theorem Split.forLoop_keep (hB : Split jump true B B' goneB)
    (h : Split jump inLoop rest kept gone) :
    Split jump inLoop (.forLoop s c B rest) (.forLoop s c B' kept) (goneB ++ gone) := by
  refine ⟨fun f g => ?_, (hB.sublist.append h.sublist).cons_cons s,
    fun hin => ⟨hB.inLoops hin.1, h.inLoops hin.2⟩, ?_⟩
  · simp only [Stms.weigh, Stms.weigh_append, ← hB.weigh f g, ← h.weigh f g]
    abel
  · have hd := hB.depth
    have hd' := h.depth
    simp only [Stms.depth]
    omega

theorem Split.forLoop_delete (hB : Split jump true B B' goneB)
    (h : Split jump inLoop rest kept gone) :
    Split jump inLoop (.forLoop s c B rest) kept (.forLoop s c B' (goneB ++ gone)) := by
  refine ⟨fun f g => ?_, (h.sublist.trans (List.sublist_append_right _ _)).cons s,
    fun hin => h.inLoops hin.2, le_trans h.depth (le_max_right _ _)⟩
  simp only [Stms.weigh, Stms.weigh_append, ← hB.weigh f g, ← h.weigh f g]
  abel

/-- Lifted inside a loop, with the breaks and continues. -/
theorem Split.forLoop_lift (hB : Split jump true B B' goneB) (h : Split jump true rest kept gone) :
    Split jump true (.forLoop s c B rest) (B' ++ kept) (.forLoop s c .nil (goneB ++ gone)) := by
  refine ⟨fun f g => ?_, ?_, fun hin => (hB.inLoops hin.1).append (h.inLoops hin.2), ?_⟩
  · simp only [Stms.weigh, Stms.weigh_append, ← hB.weigh f g, ← h.weigh f g]
    abel
  · rw [Stms.preorder_append]
    exact (hB.sublist.append h.sublist).cons s
  · have hd := hB.depth
    have hd' := h.depth
    simp only [Stms.depth, Stms.depth_append]
    omega

/-- Lifted outside of all loops, without them. -/
theorem Split.forLoop_unloop (hB : Split jump true B B' goneB)
    (h : Split jump inLoop rest kept gone) :
    Split jump inLoop (.forLoop s c B rest) (dropJumps jump B' ++ kept)
      (Stms.leaves (jumps jump B') ++ .forLoop s c .nil (goneB ++ gone)) := by
  refine ⟨fun f g => ?_, ?_, fun hin =>
    (inLoops_dropJumps (hB.inLoops hin.1)).append (h.inLoops hin.2), ?_⟩
  · simp only [Stms.weigh, Stms.weigh_append, Stms.weigh_leaves, ← hB.weigh f g, ← h.weigh f g,
      ← weigh_dropJumps f g jump B']
    abel
  · rw [Stms.preorder_append]
    exact (((dropJumps_sublist jump B').trans hB.sublist).append h.sublist).cons s
  · have hd := hB.depth
    have hd' := h.depth
    have hd'' := depth_dropJumps jump B'
    simp only [Stms.depth, Stms.depth_append]
    omega

end Compound

/-- **Every result of the recursion is such a split.** -/
theorem prune_split (h : prune p jump inLoop T t = some ((kept, gone), t')) :
    Split jump inLoop T kept gone := by
  induction T generalizing inLoop t t' kept gone with
  | nil =>
    cases h
    exact split_nil
  | leaf s rest ih =>
    simp only [prune, Gen.bind_eq_some] at h
    obtain ⟨doLeaf, t₁, -, ⟨kept₁, gone₁⟩, t₂, hrest, hout⟩ := h
    have hsplit := (ih hrest).leaf s doLeaf
    cases doLeaf with
    | true =>
      cases hout
      exact hsplit
    | false =>
      cases hout
      exact hsplit
  | ifElse s c e T E rest ihT ihE ih =>
    simp only [prune, Gen.bind_eq_some] at h
    obtain ⟨⟨T', goneT⟩, t₁, hT, ⟨E', goneE⟩, t₂, hE, doCompound, t₃, -, doLift, t₄, -,
      ⟨kept₁, gone₁⟩, t₅, hrest, hout⟩ := h
    cases doCompound with
    | true =>
      cases hout
      exact .ifElse_delete s c e (ihT hT) (ihE hE) (ih hrest)
    | false =>
      cases doLift with
      | true =>
        cases hout
        exact .ifElse_lift s c e (ihT hT) (ihE hE) (ih hrest)
      | false =>
        cases hout
        exact .ifElse_keep s c e (ihT hT) (ihE hE) (ih hrest)
  | forLoop s b B rest ihB ih =>
    simp only [prune, Gen.bind_eq_some] at h
    obtain ⟨⟨B', goneB⟩, t₁, hB, doCompound, t₂, -, doLift, t₃, -, ⟨kept₁, gone₁⟩, t₄, hrest,
      hout⟩ := h
    cases doCompound with
    | true =>
      cases hout
      exact .forLoop_delete s b (ihB hB) (ih hrest)
    | false =>
      cases doLift with
      | false =>
        cases hout
        exact .forLoop_keep s b (ihB hB) (ih hrest)
      | true =>
        cases inLoop with
        | true =>
          cases hout
          exact .forLoop_lift s b (ihB hB) (ih hrest)
        | false =>
          cases hout
          exact .forLoop_unloop s b (ihB hB) (ih hrest)

/-- The coins of a list: one for a leaf, two for a compound statement. -/
def cost : Stms ℕ ℕ → ℕ
  | .nil => 0
  | .leaf _ rest => 1 + cost rest
  | .ifElse _ _ _ T E rest => cost T + cost E + 2 + cost rest
  | .forLoop _ _ B rest => cost B + 2 + cost rest

/-- **Each statement has its coins**, and no other is drawn. -/
theorem prune_total (h : cost T ≤ t.length) :
    ∃ r, prune p jump inLoop T t = some (r, t.drop (cost T)) := by
  induction T generalizing inLoop t with
  | nil => exact ⟨(.nil, .nil), rfl⟩
  | leaf s rest ih =>
    rw [cost] at h
    obtain ⟨doLeaf, hcoin⟩ := rndFlipcoin_total p.leaf (t := t) (by omega)
    obtain ⟨r, hrest⟩ := @ih inLoop (t.drop 1) (by rw [List.length_drop]; omega)
    rw [List.drop_drop] at hrest
    exact ⟨_, Gen.bind_eq_some.mpr ⟨doLeaf, _, hcoin, Gen.bind_eq_some.mpr ⟨r, _, hrest,
      Gen.pure_apply⟩⟩⟩
  | ifElse s c e T E rest ihT ihE ih =>
    rw [cost] at h
    -- the branches draw first, then the two coins, then the rest
    obtain ⟨rT, hT⟩ := @ihT inLoop t (by omega)
    obtain ⟨rE, hE⟩ := @ihE inLoop (t.drop (cost T))
      (by rw [List.length_drop]; omega)
    rw [List.drop_drop] at hE
    obtain ⟨doCompound, hc⟩ := rndFlipcoin_total p.compound (t := t.drop (cost T + cost E))
      (by rw [List.length_drop]; omega)
    rw [List.drop_drop] at hc
    obtain ⟨doLift, hl⟩ := rndFlipcoin_total p.liftAdj (t := t.drop (cost T + cost E + 1))
      (by rw [List.length_drop]; omega)
    rw [List.drop_drop] at hl
    obtain ⟨r, hrest⟩ := @ih inLoop (t.drop (cost T + cost E + 2))
      (by rw [List.length_drop]; omega)
    rw [List.drop_drop] at hrest
    exact ⟨_, Gen.bind_eq_some.mpr ⟨rT, _, hT, Gen.bind_eq_some.mpr ⟨rE, _, hE,
      Gen.bind_eq_some.mpr ⟨doCompound, _, hc, Gen.bind_eq_some.mpr ⟨doLift, _, hl,
        Gen.bind_eq_some.mpr ⟨r, _, hrest, Gen.pure_apply⟩⟩⟩⟩⟩⟩
  | forLoop s b B rest ihB ih =>
    rw [cost] at h
    obtain ⟨rB, hB⟩ := @ihB true t (by omega)
    obtain ⟨doCompound, hc⟩ := rndFlipcoin_total p.compound (t := t.drop (cost B))
      (by rw [List.length_drop]; omega)
    rw [List.drop_drop] at hc
    obtain ⟨doLift, hl⟩ := rndFlipcoin_total p.liftAdj (t := t.drop (cost B + 1))
      (by rw [List.length_drop]; omega)
    rw [List.drop_drop] at hl
    obtain ⟨r, hrest⟩ := @ih inLoop (t.drop (cost B + 2))
      (by rw [List.length_drop]; omega)
    rw [List.drop_drop] at hrest
    exact ⟨_, Gen.bind_eq_some.mpr ⟨rB, _, hB, Gen.bind_eq_some.mpr ⟨doCompound, _, hc,
      Gen.bind_eq_some.mpr ⟨doLift, _, hl, Gen.bind_eq_some.mpr ⟨r, _, hrest, Gen.pure_apply⟩⟩⟩⟩⟩

end EMI

end CLSmith
