import CLSmith.Goto.MustReturn
/-!
# What a removal leaves

`remove_stmt` on a function whose edges, `break_stms` and `func->blocks` are
about statements that are there. While a removal goes on, statements wait to
be removed: the jumps inside them have lost their edges, and whatever else
leads into them still has its own.
-/

namespace CLSmith

namespace Generate

open EMI

variable {M : Type}

/-- **A forest**: the blocks in `R` are not yet in a statement, and are open from
the body down. -/
structure IsForest (f : Func M) (R : ℕ → Prop) : Prop extends IsTree f where
  root_parent : ∀ r p, R r → (f.block r).parent = some p → R p
  root_owner : ∀ r s, R r → ¬ Owns f s r
  lt_nextBlock : ∀ c, Within f R c → c < f.nextBlock

/-- The statement or block is there. -/
def Present (f : Func M) (R : ℕ → Prop) : Node → Prop
  | .stm s => s ∈ (f.block (f.stm s).parent).stms ∧ Within f R (f.stm s).parent
  | .block b => Within f R b

/-- The edges that are created: of continues, breaks and gotos, and from the tail
of a loop body to its head. -/
def EdgeOk (f : Func M) (e : CFGEdge) : Prop :=
  match e.src with
  | .block b => e = ⟨.block b, .block b, false, true⟩
  | .stm s =>
    match (f.stm s).kind with
    | .cont _ => ∃ l, loopBody f s = some l ∧ e.dest = .block l
    | .brk _ => ∃ l s', loopBody f s = some l ∧ l ∈ (f.stm s').kind.blocks ∧ e.dest = .stm s'
    | .goto _ dest => e.dest = .stm dest
    | _ => False

/-- Part of a statement that waits. -/
def Inside (σ : FlowGraph M) (Z : List ℕ) (n : Node) : Prop := ∃ z ∈ Z, σ.contains z n = true

/-- **Edges, `break_stms` and `func->blocks` are about what is there**; every
continue and goto has its edge, unless it is part of a statement in `Z`. -/
structure Tracked (σ : FlowGraph M) (R : ℕ → Prop) (Z : List ℕ) : Prop where
  forest : IsForest σ.func R
  pending : ∀ z ∈ Z, Present σ.func R (.stm z)
  edge : ∀ e ∈ σ.cfgEdges,
    Present σ.func R e.src ∧ Present σ.func R e.dest ∧ EdgeOk σ.func e
  cont : ∀ s, Present σ.func R (.stm s) → ∀ test l, (σ.func.stm s).kind = .cont test →
    loopBody σ.func s = some l → (⟨.stm s, .block l, false, true⟩ : CFGEdge) ∈ σ.cfgEdges ∨
      Inside σ Z (.stm s)
  goto : ∀ s, Present σ.func R (.stm s) → ∀ test dest, (σ.func.stm s).kind = .goto test dest →
    (∃ back, (⟨.stm s, .stm dest, false, back⟩ : CFGEdge) ∈ σ.cfgEdges) ∨ Inside σ Z (.stm s)
  break_stms : ∀ b, ∀ s ∈ σ.breakStms b, (∃ test, (σ.func.stm s).kind = .brk test) ∧
    loopBody σ.func s = some b ∧ (Within σ.func R b → Present σ.func R (.stm s))
  blocks : ∀ b ∈ σ.func.blocks, Within σ.func R b

/-- Nothing comes from the statements in `Z` any more. -/
structure Silent (σ : FlowGraph M) (Z : List ℕ) : Prop where
  edge : ∀ e ∈ σ.cfgEdges, ∀ s, e.src = .stm s → ¬ Inside σ Z (.stm s)
  break_stms : ∀ z ∈ Z, ∀ b, ∀ s ∈ σ.breakStms b, σ.contains z (.stm s) = true →
    σ.contains z (.block b) = true

/-- `f'` is `f` with statements removed. -/
structure Shrunk (f f' : Func M) : Prop where
  stm : f'.stm = f.stm
  block : ∀ b, f'.block b = { f.block b with stms := (f'.block b).stms }
  stms : ∀ b, (f'.block b).stms.Sublist (f.block b).stms
  stack : f'.stack = f.stack
  made : f'.made = f.made
  nextBlock : f'.nextBlock = f.nextBlock
  nextStm : f'.nextStm = f.nextStm

/-- Gotos that must go when `s` does: those that lead into it, and those that lead to
one of these. -/
inductive Leads (σ : FlowGraph M) (s : ℕ) : ℕ → Prop
  | into {g dest : ℕ} {test : M → Bool} (hk : (σ.func.stm g).kind = .goto test dest)
      (h : σ.contains s (.stm dest) = true) : Leads σ s g
  | step {g dest : ℕ} {test : M → Bool} (hk : (σ.func.stm g).kind = .goto test dest)
      (h : Leads σ s dest) : Leads σ s g

variable {f f' f'' : Func M} {σ σ' : FlowGraph M} {R : ℕ → Prop} {Z : List ℕ} {b c d s t z : ℕ}

/-! ## Fewer statements -/

theorem Shrunk.refl : Shrunk f f :=
  ⟨rfl, fun _ => rfl, fun _ => List.Sublist.refl _, rfl, rfl, rfl, rfl⟩

theorem Shrunk.parent (h : Shrunk f f') (b : ℕ) : (f'.block b).parent = (f.block b).parent := by
  rw [h.block]

theorem Shrunk.role (h : Shrunk f f') (b : ℕ) : (f'.block b).role = (f.block b).role := by
  rw [h.block]

theorem Shrunk.trans (h : Shrunk f f') (h' : Shrunk f' f'') : Shrunk f f'' where
  stm := h'.stm.trans h.stm
  block b := by rw [h'.block b, h.block b]
  stms b := (h'.stms b).trans (h.stms b)
  stack := h'.stack.trans h.stack
  made := h'.made.trans h.made
  nextBlock := h'.nextBlock.trans h.nextBlock
  nextStm := h'.nextStm.trans h.nextStm

theorem Shrunk.chain (h : Shrunk f f') (hp : f.ParentLt) (b : ℕ) : f'.chain b = f.chain b :=
  Func.chain_congr hp fun c _ => h.parent c

theorem Shrunk.loopBody (h : Shrunk f f') (hp : f.ParentLt) (s : ℕ) :
    EMI.loopBody f' s = EMI.loopBody f s := by
  unfold EMI.loopBody
  rw [h.stm, h.chain hp]
  simp only [h.role]

theorem Shrunk.owns (h : Shrunk f f') (ho : Owns f' s d) : Owns f s d := by
  unfold Owns at ho ⊢
  rw [h.stm] at ho
  exact ⟨(h.stms _).subset ho.1, ho.2⟩

theorem Shrunk.isTree (h : Shrunk f f') (hT : IsTree f) : IsTree f' where
  parent_lt b p hp := hT.parent_lt b p (by rwa [← h.parent])
  mem c s hs := by
    rw [h.stm]
    exact hT.mem c s ((h.stms c).subset hs)
  nodup c := (h.stms c).nodup (hT.nodup c)
  nested s d ho := by
    rw [h.parent, h.stm]
    exact hT.nested s d (h.owns ho)
  owner s s' d ho ho' := hT.owner s s' d (h.owns ho) (h.owns ho')
  loop s d ho hrole := by
    rw [h.stm]
    exact hT.loop s d (h.owns ho) (by rwa [← h.role])

theorem Shrunk.within (h : Shrunk f f') (hW : Within f' R c) : Within f R c := by
  induction hW with
  | root hc => exact .root hc
  | nested _ hs hd ih =>
    rw [h.stm] at hd
    exact ih.nested ((h.stms _).subset hs) hd

theorem Shrunk.isForest (h : Shrunk f f') (hF : IsForest f R) : IsForest f' R where
  toIsTree := h.isTree hF.toIsTree
  root_parent r p hr hp := hF.root_parent r p hr (by rwa [← h.parent])
  root_owner r s hr ho := hF.root_owner r s hr (h.owns ho)
  lt_nextBlock c hW := by
    rw [h.nextBlock]
    exact hF.lt_nextBlock c (h.within hW)

theorem Shrunk.edgeOk {e : CFGEdge} (h : Shrunk f f') (hp : f.ParentLt) (he : EdgeOk f e) :
    EdgeOk f' e := by
  unfold EdgeOk at he ⊢
  simp only [h.stm, h.loopBody hp]
  exact he

theorem containsBlock_iff :
    σ.containsBlock s b = true ↔ ∃ c ∈ (σ.func.stm s).kind.blocks, c ∈ σ.func.chain b := by
  simp [FlowGraph.containsBlock, FlowGraph.kind]

theorem contains_stm :
    σ.contains s (.stm t) = true ↔ s = t ∨ σ.containsBlock s (σ.func.stm t).parent = true := by
  simp [FlowGraph.contains, FlowGraph.parent]

theorem contains_self : σ.contains s (.stm s) = true := contains_stm.mpr (.inl rfl)

theorem Shrunk.contains (h : Shrunk σ.func σ'.func) (hp : σ.func.ParentLt) (s : ℕ) (n : Node) :
    σ'.contains s n = σ.contains s n := by
  have hblock : ∀ b, σ'.containsBlock s b = true ↔ σ.containsBlock s b = true := by
    intro b
    rw [containsBlock_iff, containsBlock_iff, h.stm, h.chain hp]
  rw [Bool.eq_iff_iff]
  cases n with
  | stm t => rw [contains_stm, contains_stm, hblock, h.stm]
  | block b => exact hblock b

theorem Shrunk.inside {n : Node} (h : Shrunk σ.func σ'.func) (hp : σ.func.ParentLt) :
    Inside σ' Z n ↔ Inside σ Z n := by
  unfold Inside
  simp only [h.contains hp]

theorem Shrunk.leads (h : Shrunk σ.func σ'.func) (hp : σ.func.ParentLt) (hL : Leads σ' s t) :
    Leads σ s t := by
  induction hL with
  | into hk hc =>
    rw [h.stm] at hk
    rw [h.contains hp] at hc
    exact .into hk hc
  | step hk _ ih =>
    rw [h.stm] at hk
    exact .step hk ih

/-! ## Containment -/

/-- The blocks around a block that is there are there. -/
theorem IsForest.within_chain (hF : IsForest f R) (hW : Within f R c) (hd : d ∈ f.chain c) :
    Within f R d := by
  have roots : ∀ r, R r → ∀ d ∈ f.chain r, R d := by
    intro r
    induction r using Nat.strong_induction_on with
    | _ r ih =>
      intro hr d hd
      cases hpar : (f.block r).parent with
      | none =>
        rw [Func.chain_of_none hpar] at hd
        rwa [List.mem_singleton.mp hd]
      | some p =>
        rw [Func.chain_of_parent hF.parent_lt hpar] at hd
        rcases List.mem_cons.mp hd with rfl | hd
        · exact hr
        · exact ih p (hF.parent_lt r p hpar) (hF.root_parent r p hr hpar) d hd
  induction hW with
  | root hc => exact .root (roots _ hc d hd)
  | @nested c e s hc hs he ih =>
    rw [chain_nested hF.toIsTree (owns_of_mem hF.toIsTree hs he), hF.mem c s hs] at hd
    rcases List.mem_cons.mp hd with rfl | hd
    · exact hc.nested hs he
    · exact ih hd

/-- No statement that is there contains a block that waits for its own. -/
theorem IsForest.not_containsBlock_root (hF : IsForest σ.func R) (hc : R c)
    (hs : s ∈ (σ.func.block (σ.func.stm s).parent).stms) : ¬ σ.containsBlock s c = true := by
  intro h
  obtain ⟨d, hd, hdc⟩ := containsBlock_iff.mp h
  induction c using Nat.strong_induction_on with
  | _ c ih =>
    cases hpar : (σ.func.block c).parent with
    | none =>
      rw [Func.chain_of_none hpar] at hdc
      obtain rfl := List.mem_singleton.mp hdc
      exact hF.root_owner d s hc ⟨hs, hd⟩
    | some p =>
      rw [Func.chain_of_parent hF.parent_lt hpar] at hdc
      rcases List.mem_cons.mp hdc with rfl | hdc
      · exact hF.root_owner d s hc ⟨hs, hd⟩
      · exact ih p (hF.parent_lt c p hpar) (hF.root_parent c p hc hpar)
          (containsBlock_iff.mpr ⟨d, hd, hdc⟩) hdc

/-- A statement contains a block of a statement `u` when it is `u` or contains
it. -/
theorem containsBlock_nested (hT : IsTree σ.func) (ho : Owns σ.func t d)
    (hs : s ∈ (σ.func.block (σ.func.stm s).parent).stms) :
    σ.containsBlock s d = true ↔ σ.contains s (.stm t) = true := by
  rw [contains_stm, containsBlock_iff, containsBlock_iff, chain_nested hT ho]
  constructor
  · rintro ⟨c, hc, hcd⟩
    rcases List.mem_cons.mp hcd with rfl | hcd
    · exact .inl (hT.owner s t c ⟨hs, hc⟩ ho)
    · exact .inr ⟨c, hc, hcd⟩
  · rintro (rfl | ⟨c, hc, hcd⟩)
    · exact ⟨d, ho.2, List.mem_cons_self⟩
    · exact ⟨c, hc, List.mem_cons_of_mem _ hcd⟩

/-- A statement without blocks contains only itself. -/
theorem contains_of_blocks {n : Node} (hk : (σ.func.stm s).kind.blocks = [])
    (h : σ.contains s n = true) : n = .stm s := by
  have hnot : ∀ b, ¬ σ.containsBlock s b = true := by
    intro b hb
    obtain ⟨c, hc, -⟩ := containsBlock_iff.mp hb
    rw [hk] at hc
    cases hc
  cases n with
  | stm t =>
    rcases contains_stm.mp h with rfl | h
    · rfl
    · exact absurd h (hnot _)
  | block b => exact absurd h (hnot b)

/-- What is inside a block of a statement, down from it. -/
theorem contains_descend (hF : IsForest σ.func R) (hs : Present σ.func R (.stm s))
    (hc : c ∈ (σ.func.stm s).kind.blocks) (hW : Within σ.func R d) (hcd : c ∈ σ.func.chain d) :
    d = c ∨ ∃ u ∈ (σ.func.block c).stms, σ.containsBlock u d = true := by
  have hT := hF.toIsTree
  induction hW with
  | root hd =>
    have hin : σ.containsBlock s _ = true := containsBlock_iff.mpr ⟨c, hc, hcd⟩
    exact absurd hin (hF.not_containsBlock_root hd hs.1)
  | @nested e d u he hu hd ih =>
    have ho := owns_of_mem hT hu hd
    have hchain := chain_nested hT ho
    rw [hT.mem e u hu] at hchain
    rw [hchain] at hcd
    rcases List.mem_cons.mp hcd with rfl | hcd
    · exact .inl rfl
    · refine .inr ?_
      rcases ih hcd with rfl | ⟨v, hv, hvc⟩
      · exact ⟨u, hu, containsBlock_iff.mpr ⟨d, hd, by rw [hchain]; simp⟩⟩
      · obtain ⟨w, hw, hwc⟩ := containsBlock_iff.mp hvc
        exact ⟨v, hv, containsBlock_iff.mpr ⟨w, hw, by rw [hchain]; simp [hwc]⟩⟩

/-! ## The jumps inside a statement -/

/-- A break, continue or goto. -/
def Kind.IsJump : Kind M → Prop
  | .brk _ => True
  | .cont _ => True
  | .goto _ _ => True
  | _ => False

/-- What `find_typed_stmts` finds is inside. -/
theorem contains_of_mem_typedStms {n : ℕ} (hF : IsForest σ.func R)
    (hs : Present σ.func R (.stm s)) (ht : t ∈ σ.typedStmsFrom n s) :
    σ.contains s (.stm t) = true ∧ (σ.func.stm t).kind.IsJump := by
  have hT := hF.toIsTree
  induction n generalizing s with
  | zero => cases ht
  | succ n ih =>
    unfold FlowGraph.typedStmsFrom FlowGraph.kind at ht
    split at ht
    · next hk =>
      obtain rfl := List.mem_singleton.mp ht
      exact ⟨contains_self, by rw [hk]; trivial⟩
    · next hk =>
      obtain rfl := List.mem_singleton.mp ht
      exact ⟨contains_self, by rw [hk]; trivial⟩
    · next hk =>
      obtain rfl := List.mem_singleton.mp ht
      exact ⟨contains_self, by rw [hk]; trivial⟩
    -- Any other statement gives what its blocks hold, one level further down.
    · obtain ⟨c, hc, ht⟩ := List.mem_flatMap.mp ht
      obtain ⟨u, hu, ht⟩ := List.mem_flatMap.mp ht
      have hW : Within σ.func R c := hs.2.nested hs.1 hc
      have hpar := hT.mem c u hu
      obtain ⟨hin, hjump⟩ := ih ⟨by rwa [hpar], by rwa [hpar]⟩ ht
      refine ⟨contains_stm.mpr (.inr ?_), hjump⟩
      rcases contains_stm.mp hin with rfl | hin
      · rw [hpar]
        exact containsBlock_iff.mpr ⟨c, hc, Func.mem_chain_self⟩
      · obtain ⟨e, he, het⟩ := containsBlock_iff.mp hin
        have hchain := chain_nested hT (owns_of_mem hT hu he)
        rw [hpar] at hchain
        refine containsBlock_iff.mpr ⟨c, hc, Func.chain_subset hT.parent_lt het ?_⟩
        rw [hchain]
        exact List.mem_cons_of_mem _ Func.mem_chain_self

/-- `find_typed_stmts` finds every jump inside. -/
theorem mem_typedStms {n : ℕ} (hF : IsForest σ.func R) (hs : Present σ.func R (.stm s))
    (hn : σ.func.nextBlock ≤ n + (σ.func.stm s).parent) (hn' : 0 < n)
    (ht : Present σ.func R (.stm t)) (hj : (σ.func.stm t).kind.IsJump)
    (hin : σ.contains s (.stm t) = true) : t ∈ σ.typedStmsFrom n s := by
  have hT := hF.toIsTree
  induction n generalizing s with
  | zero => omega
  | succ n ih =>
    rcases contains_stm.mp hin with rfl | hin
    · unfold FlowGraph.typedStmsFrom FlowGraph.kind
      cases hk : (σ.func.stm s).kind with
      | brk test => simp
      | cont test => simp
      | goto test dest => simp
      | _ =>
        rw [hk] at hj
        exact absurd hj id
    · obtain ⟨c, hc, hct⟩ := containsBlock_iff.mp hin
      have hWc : Within σ.func R c := hs.2.nested hs.1 hc
      have hlt := hT.parent_lt c _ (hT.nested s c ⟨hs.1, hc⟩)
      have hltc := hF.lt_nextBlock c hWc
      -- the statement of the block `c` that is the jump or contains it
      obtain ⟨u, hu, hut⟩ : ∃ u ∈ (σ.func.block c).stms, σ.contains u (.stm t) = true := by
        rcases contains_descend hF hs hc ht.2 hct with hpar | ⟨u, hu, hut⟩
        · exact ⟨t, by rw [← hpar]; exact ht.1, contains_self⟩
        · exact ⟨u, hu, contains_stm.mpr (.inr hut)⟩
      have hpar := hT.mem c u hu
      have hmem := ih (s := u) ⟨by rwa [hpar], by rwa [hpar]⟩ (by omega) (by omega) hut
      unfold FlowGraph.typedStmsFrom FlowGraph.kind
      have hflat : t ∈ (σ.func.stm s).kind.blocks.flatMap fun c =>
          (σ.stms c).flatMap (σ.typedStmsFrom n) :=
        List.mem_flatMap.mpr ⟨c, hc, List.mem_flatMap.mpr ⟨u, hu, hmem⟩⟩
      cases hk : (σ.func.stm s).kind with
      | ifElse test a b => rwa [hk] at hflat
      | forLoop init test incr a => rwa [hk] at hflat
      | emi i j a b => rwa [hk] at hflat
      | _ =>
        rw [hk] at hc
        cases hc

/-- **`find_typed_stmts` finds the jumps inside a statement.** -/
theorem typedStms_iff (hF : IsForest σ.func R) (hs : Present σ.func R (.stm s))
    (ht : Present σ.func R (.stm t)) :
    t ∈ σ.typedStms s ↔ σ.contains s (.stm t) = true ∧ (σ.func.stm t).kind.IsJump :=
  ⟨contains_of_mem_typedStms hF hs, fun h =>
    mem_typedStms hF hs (by omega) (Nat.succ_pos _) ht h.2 h.1⟩

/-! ## The end of a removal -/

/-- `s` alone is taken out of its block; every other block has the statements it had. -/
structure Erased (σ σ' : FlowGraph M) (s : ℕ) : Prop where
  shrunk : Shrunk σ.func σ'.func
  stms : (σ'.func.block (σ.func.stm s).parent).stms =
    ((σ.func.block (σ.func.stm s).parent).stms).erase s
  others : ∀ d, d ≠ (σ.func.stm s).parent → (σ'.func.block d).stms = (σ.func.block d).stms

theorem eraseStmt_erased (hs : s ∈ (σ.func.block (σ.func.stm s).parent).stms) :
    Erased σ (σ.eraseStmt (σ.func.stm s).parent s) s := by
  have hfunc : (σ.eraseStmt (σ.func.stm s).parent s).func =
      ({ σ.func with
        blocks := σ.func.blocks.filter fun d => !σ.containsBlock s d } : Func M).setStms
          (σ.func.stm s).parent ((σ.func.block (σ.func.stm s).parent).stms.erase s) := by
    unfold FlowGraph.eraseStmt FlowGraph.stms
    rw [if_pos hs]
  refine ⟨⟨?_, ?_, ?_, ?_, ?_, ?_, ?_⟩, ?_, ?_⟩
  · rw [hfunc]
    rfl
  · intro b
    rw [hfunc]
    by_cases hb : b = (σ.func.stm s).parent
    · simp [Func.setStms, hb]
    · simp [Func.setStms, hb]
  · intro b
    rw [hfunc]
    by_cases hb : b = (σ.func.stm s).parent
    · subst hb
      simpa [Func.setStms] using List.erase_sublist
    · simp [Func.setStms, hb]
  · rw [hfunc]
    rfl
  · rw [hfunc]
    rfl
  · rw [hfunc]
    rfl
  · rw [hfunc]
    rfl
  · rw [hfunc]
    simp [Func.setStms]
  · intro d hd
    rw [hfunc]
    simp [Func.setStms, hd]

/-- What is left in a block is whatever else was in it. -/
theorem Erased.mem (h : Erased σ σ' s) (hT : IsTree σ.func) :
    t ∈ (σ'.func.block c).stms ↔ t ∈ (σ.func.block c).stms ∧ t ≠ s := by
  by_cases hc : c = (σ.func.stm s).parent
  · rw [hc, h.stms, (hT.nodup _).mem_erase_iff]
    exact And.comm
  · rw [h.others c hc]
    refine ⟨fun ht => ⟨ht, ?_⟩, And.left⟩
    rintro rfl
    exact hc (hT.mem c t ht).symm

/-- **The blocks left are those that are not inside the statement.** -/
theorem Erased.within (h : Erased σ σ' s) (hF : IsForest σ.func R)
    (hs : Present σ.func R (.stm s)) :
    Within σ'.func R d ↔ Within σ.func R d ∧ ¬ σ.containsBlock s d = true := by
  have hT := hF.toIsTree
  constructor
  · intro hW
    refine ⟨h.shrunk.within hW, ?_⟩
    induction hW with
    | root hd => exact hF.not_containsBlock_root hd hs.1
    | @nested c e u hc hu he ih =>
      rw [h.shrunk.stm] at he
      obtain ⟨hu, hne⟩ := (h.mem hT).mp hu
      rw [containsBlock_nested hT (owns_of_mem hT hu he) hs.1, contains_stm, hT.mem c u hu]
      rintro (rfl | hin)
      · exact hne rfl
      · exact ih hin
  · rintro ⟨hW, hnot⟩
    induction hW with
    | root hd => exact .root hd
    | @nested c e u hc hu he ih =>
      rw [containsBlock_nested hT (owns_of_mem hT hu he) hs.1, contains_stm, hT.mem c u hu] at hnot
      refine (ih fun hin => hnot (.inr hin)).nested ((h.mem hT).mpr ⟨hu, ?_⟩) ?_
      · rintro rfl
        exact hnot (.inl rfl)
      · rwa [h.shrunk.stm]

/-- **What is left is what is not part of the statement.** -/
theorem Erased.present (h : Erased σ σ' s) (hF : IsForest σ.func R)
    (hs : Present σ.func R (.stm s)) {n : Node} :
    Present σ'.func R n ↔ Present σ.func R n ∧ ¬ σ.contains s n = true := by
  cases n with
  | block b => exact h.within hF hs
  | stm t =>
    simp only [Present]
    rw [h.shrunk.stm, h.mem hF.toIsTree, h.within hF hs, contains_stm]
    constructor
    · rintro ⟨⟨hmem, hne⟩, hW, hnot⟩
      exact ⟨⟨hmem, hW⟩, fun hin => hin.elim (fun heq => hne heq.symm) hnot⟩
    · rintro ⟨⟨hmem, hW⟩, hnot⟩
      exact ⟨⟨hmem, fun heq => hnot (.inl heq.symm)⟩, hW, fun hin => hnot (.inr hin)⟩

@[simp] theorem eraseStmt_cfgEdges (b : ℕ) : (σ.eraseStmt b s).cfgEdges = σ.cfgEdges := by
  unfold FlowGraph.eraseStmt
  dsimp only
  split <;> rfl

@[simp] theorem eraseStmt_breakStms (b : ℕ) : (σ.eraseStmt b s).breakStms = σ.breakStms := by
  unfold FlowGraph.eraseStmt
  dsimp only
  split <;> rfl

theorem eraseStmt_blocks (b : ℕ) : (σ.eraseStmt b s).func.blocks =
    σ.func.blocks.filter fun d => !σ.containsBlock s d := by
  unfold FlowGraph.eraseStmt
  dsimp only
  split <;> rfl

/-- **The end of a removal**, when nothing leads into the statement and nothing
comes from it. -/
theorem Tracked.eraseStmt (h : Tracked σ R (s :: Z)) (hs : Silent σ (s :: Z))
    (hZ : ∀ z ∈ Z, ¬ σ.contains s (.stm z) = true)
    (hin : ∀ e ∈ σ.cfgEdges, ¬ σ.contains s e.dest = true) :
    Tracked (σ.eraseStmt (σ.func.stm s).parent s) R Z ∧
      Silent (σ.eraseStmt (σ.func.stm s).parent s) Z := by
  have hF := h.forest
  have hp := hF.parent_lt
  have hmem := h.pending s List.mem_cons_self
  have he := eraseStmt_erased hmem.1
  have hshrunk := he.shrunk
  have inside_cons : ∀ {n}, Inside σ (s :: Z) n ↔ σ.contains s n = true ∨ Inside σ Z n := by
    intro n
    simp [Inside]
  refine ⟨⟨hshrunk.isForest hF, ?_, ?_, ?_, ?_, ?_, ?_⟩, ?_, ?_⟩
  · intro z hz
    exact (he.present hF hmem).mpr ⟨h.pending z (List.mem_cons_of_mem _ hz), hZ z hz⟩
  · intro e hmem'
    rw [eraseStmt_cfgEdges] at hmem'
    obtain ⟨hsrc, hdest, hok⟩ := h.edge e hmem'
    refine ⟨(he.present hF hmem).mpr ⟨hsrc, ?_⟩, (he.present hF hmem).mpr ⟨hdest, hin e hmem'⟩,
      hshrunk.edgeOk hp hok⟩
    -- an edge from a block leads to it
    cases hnode : e.src with
    | stm t => exact fun hc => hs.edge e hmem' t hnode (inside_cons.mpr (.inl hc))
    | block b =>
      unfold EdgeOk at hok
      rw [hnode] at hok
      dsimp only at hok
      have hdest := hin e hmem'
      rw [hok] at hdest
      exact hdest
  · intro t ht test l hk hl
    obtain ⟨ht, hnot⟩ := (he.present hF hmem).mp ht
    rw [hshrunk.stm] at hk
    rw [hshrunk.loopBody hp] at hl
    rw [eraseStmt_cfgEdges, hshrunk.inside hp]
    refine (h.cont t ht test l hk hl).imp_right fun hin => ?_
    exact (inside_cons.mp hin).resolve_left hnot
  · intro t ht test dest hk
    obtain ⟨ht, hnot⟩ := (he.present hF hmem).mp ht
    rw [hshrunk.stm] at hk
    rw [eraseStmt_cfgEdges, hshrunk.inside hp]
    refine (h.goto t ht test dest hk).imp_right fun hin => ?_
    exact (inside_cons.mp hin).resolve_left hnot
  · intro b t ht
    rw [eraseStmt_breakStms] at ht
    obtain ⟨hk, hl, hW⟩ := h.break_stms b t ht
    rw [hshrunk.stm, hshrunk.loopBody hp]
    refine ⟨hk, hl, fun hb => ?_⟩
    obtain ⟨hb, hnot⟩ := (he.within hF hmem).mp hb
    exact (he.present hF hmem).mpr ⟨hW hb, fun hin =>
      hnot (hs.break_stms s List.mem_cons_self b t ht hin)⟩
  · intro b hb
    rw [eraseStmt_blocks, List.mem_filter] at hb
    exact (he.within hF hmem).mpr ⟨h.blocks b hb.1, by simpa using hb.2⟩
  · intro e hmem' t ht hin
    rw [eraseStmt_cfgEdges] at hmem'
    rw [hshrunk.inside hp] at hin
    exact hs.edge e hmem' t ht (inside_cons.mpr (.inr hin))
  · intro z hz b t ht hin
    rw [eraseStmt_breakStms] at ht
    rw [hshrunk.contains hp] at hin ⊢
    exact hs.break_stms z (List.mem_cons_of_mem _ hz) b t ht hin

/-! ## The beginning of a removal -/

/-- The chain of a block inside a statement goes through blocks inside it to the
block the statement is in. -/
theorem chain_of_containsBlock (hT : IsTree σ.func)
    (hs : s ∈ (σ.func.block (σ.func.stm s).parent).stms) (hd : σ.containsBlock s d = true) :
    ∃ pre, σ.func.chain d = pre ++ σ.func.chain (σ.func.stm s).parent ∧
      ∀ c ∈ pre, σ.containsBlock s c = true := by
  obtain ⟨c, hc, hcd⟩ := containsBlock_iff.mp hd
  induction d using Nat.strong_induction_on with
  | _ d ih =>
    cases hpar : (σ.func.block d).parent with
    | none =>
      rw [Func.chain_of_none hpar] at hcd
      obtain rfl := List.mem_singleton.mp hcd
      exact ⟨[c], chain_nested hT ⟨hs, hc⟩, List.forall_mem_singleton.mpr hd⟩
    | some p =>
      rw [Func.chain_of_parent hT.parent_lt hpar] at hcd
      rcases List.mem_cons.mp hcd with rfl | hcd
      · exact ⟨[c], chain_nested hT ⟨hs, hc⟩, List.forall_mem_singleton.mpr hd⟩
      · obtain ⟨pre, hchain, hpre⟩ := ih p (hT.parent_lt d p hpar)
          (containsBlock_iff.mpr ⟨c, hc, hcd⟩) hcd
        refine ⟨d :: pre, ?_, List.forall_mem_cons.mpr ⟨hd, hpre⟩⟩
        rw [Func.chain_of_parent hT.parent_lt hpar, hchain, List.cons_append]

/-- A loop body around part of a statement is inside it, or is around it. -/
theorem loopBody_of_contains (hT : IsTree σ.func)
    (hs : s ∈ (σ.func.block (σ.func.stm s).parent).stms) (hin : σ.contains s (.stm t) = true)
    (hl : loopBody σ.func t = some b) :
    σ.containsBlock s b = true ∨ loopBody σ.func s = some b := by
  rcases contains_stm.mp hin with rfl | hin
  · exact .inr hl
  · obtain ⟨pre, hchain, hpre⟩ := chain_of_containsBlock hT hs hin
    unfold loopBody at hl ⊢
    rw [hchain, List.find?_append] at hl
    cases hfind : pre.find? fun b => decide ((σ.func.block b).role = .loop) with
    | some c =>
      rw [hfind] at hl
      obtain rfl : c = b := by simpa using hl
      exact .inl (hpre c (List.mem_of_find?_eq_some hfind))
    | none =>
      rw [hfind] at hl
      exact .inr (by simpa using hl)

theorem dropJumps_breakStms (b : ℕ) : (σ.dropJumps (σ.func.stm s).parent s).breakStms b =
    if loopBody σ.func s = some b then (σ.breakStms b).filter fun x => decide (x ∉ σ.typedStms s)
    else σ.breakStms b := by
  have hfind : (σ.func.chain (σ.func.stm s).parent).find? σ.looping = loopBody σ.func s := rfl
  simp only [FlowGraph.dropJumps, hfind]
  cases loopBody σ.func s with
  | none => simp
  | some l =>
    by_cases hb : b = l
    · simp [hb]
    · simp [hb, Ne.symm hb]

theorem mem_dropJumps {e : CFGEdge} : e ∈ (σ.dropJumps b s).cfgEdges ↔
    e ∈ σ.cfgEdges ∧ ∀ t, e.src = .stm t → t ∉ σ.typedStms s := by
  unfold FlowGraph.dropJumps
  rw [List.mem_filter]
  refine and_congr_right fun _ => ?_
  cases e.src with
  | stm t => simp
  | block d => simp

/-- The statement an edge comes from is a jump. -/
theorem EdgeOk.isJump {e : CFGEdge} (h : EdgeOk f e) (hsrc : e.src = .stm s) :
    (f.stm s).kind.IsJump := by
  unfold EdgeOk at h
  rw [hsrc] at h
  dsimp only at h
  cases hk : (f.stm s).kind <;> rw [hk] at h <;> trivial

/-- **The beginning of a removal**: nothing comes from the statement any more. -/
theorem Tracked.dropJumps (h : Tracked σ R (s :: Z)) (hs : Silent σ Z) :
    Tracked (σ.dropJumps (σ.func.stm s).parent s) R (s :: Z) ∧
      Silent (σ.dropJumps (σ.func.stm s).parent s) (s :: Z) := by
  have hF := h.forest
  have hmem := h.pending s List.mem_cons_self
  have hsub : ∀ b, ∀ t ∈ (σ.dropJumps (σ.func.stm s).parent s).breakStms b, t ∈ σ.breakStms b := by
    intro b t ht
    rw [dropJumps_breakStms] at ht
    split at ht
    · exact (List.mem_filter.mp ht).1
    · exact ht
  -- an edge that goes is one of a jump inside
  have hkept : ∀ e ∈ σ.cfgEdges, ∀ t, e.src = .stm t → Present σ.func R (.stm t) →
      e ∈ (σ.dropJumps (σ.func.stm s).parent s).cfgEdges ∨ Inside σ (s :: Z) (.stm t) := by
    intro e he t hsrc ht
    by_cases hin : t ∈ σ.typedStms s
    · exact .inr ⟨s, List.mem_cons_self, ((typedStms_iff hF hmem ht).mp hin).1⟩
    · refine .inl (mem_dropJumps.mpr ⟨he, fun u hu => ?_⟩)
      rw [hsrc] at hu
      cases hu
      exact hin
  refine ⟨⟨hF, h.pending, ?_, ?_, ?_, ?_, h.blocks⟩, ?_, ?_⟩
  · exact fun e he => h.edge e (mem_dropJumps.mp he).1
  · intro t ht test l hk hl
    rcases h.cont t ht test l hk hl with he | hin
    · exact hkept _ he t rfl ht
    · exact .inr hin
  · intro t ht test dest hk
    rcases h.goto t ht test dest hk with ⟨back, he⟩ | hin
    · exact (hkept _ he t rfl ht).imp_left fun he => ⟨back, he⟩
    · exact .inr hin
  · exact fun b t ht => h.break_stms b t (hsub b t ht)
  · rintro e he t hsrc ⟨z, hz, hin⟩
    obtain ⟨hold, htyped⟩ := mem_dropJumps.mp he
    rcases List.mem_cons.mp hz with rfl | hz
    · obtain ⟨ht, -, hok⟩ := h.edge e hold
      rw [hsrc] at ht
      exact htyped t hsrc ((typedStms_iff hF hmem ht).mpr ⟨hin, hok.isJump hsrc⟩)
    · exact hs.edge e hold t hsrc ⟨z, hz, hin⟩
  · intro z hz b t ht hin
    rcases List.mem_cons.mp hz with rfl | hz
    · obtain ⟨⟨test, hk⟩, hl, hW⟩ := h.break_stms b t (hsub b t ht)
      refine (loopBody_of_contains hF.toIsTree hmem.1 hin hl).resolve_right fun hlz => ?_
      -- the break is in the list of the loop around the statement
      have hb : Within σ.func R b := hF.within_chain hmem.2 (List.mem_of_find?_eq_some hlz)
      rw [dropJumps_breakStms, if_pos hlz, List.mem_filter] at ht
      have htyped := (typedStms_iff hF hmem (hW hb)).mpr ⟨hin, by rw [hk]; trivial⟩
      simp [htyped] at ht
    · exact hs.break_stms z hz b t (hsub b t ht) hin

/-! ## The edges into a statement -/

/-- A break or a continue that leads to a part of a statement is part of it. -/
theorem contains_src {e : CFGEdge} (hF : IsForest σ.func R)
    (hs : s ∈ (σ.func.block (σ.func.stm s).parent).stms) (hdest : Present σ.func R e.dest)
    (hok : EdgeOk σ.func e) (hsrc : e.src = .stm t)
    (hk : ∀ test dest, (σ.func.stm t).kind ≠ .goto test dest)
    (hin : σ.contains s e.dest = true) : σ.contains s (.stm t) = true := by
  have hup : ∀ l, loopBody σ.func t = some l → σ.containsBlock s l = true →
      σ.contains s (.stm t) = true := by
    intro l hl hsl
    obtain ⟨c, hc, hcl⟩ := containsBlock_iff.mp hsl
    have hsub := Func.chain_subset hF.parent_lt (List.mem_of_find?_eq_some hl)
    exact contains_stm.mpr (.inr (containsBlock_iff.mpr ⟨c, hc, hsub hcl⟩))
  unfold EdgeOk at hok
  rw [hsrc] at hok
  dsimp only at hok
  cases hkind : (σ.func.stm t).kind with
  | cont test =>
    rw [hkind] at hok
    obtain ⟨l, hl, hd⟩ := hok
    rw [hd] at hin
    exact hup l hl hin
  | brk test =>
    rw [hkind] at hok
    obtain ⟨l, s', hl, hs', hd⟩ := hok
    rw [hd] at hin hdest
    exact hup l hl ((containsBlock_nested hF.toIsTree ⟨hdest.1, hs'⟩ hs).mpr hin)
  | goto test dest => exact absurd hkind (hk test dest)
  | _ =>
    rw [hkind] at hok
    exact absurd hok id

/-- Without the edge of a goto, the goto waits. -/
theorem Tracked.eraseGoto {e : CFGEdge} {g : ℕ} (h : Tracked σ R Z) (he : e ∈ σ.cfgEdges)
    (hsrc : e.src = .stm g) : Tracked { σ with cfgEdges := σ.cfgEdges.erase e } R (g :: Z) := by
  have hkept : ∀ e' ∈ σ.cfgEdges, ∀ t, e'.src = .stm t → e' ∈ σ.cfgEdges.erase e ∨
      Inside σ (g :: Z) (.stm t) := by
    intro e' he' t ht
    by_cases heq : e' = e
    · rw [heq, hsrc] at ht
      cases ht
      exact .inr ⟨g, List.mem_cons_self, contains_self⟩
    · exact .inl ((List.mem_erase_of_ne heq).mpr he')
  have hmore : ∀ n, Inside σ Z n → Inside σ (g :: Z) n :=
    fun n ⟨z, hz, hin⟩ => ⟨z, List.mem_cons_of_mem _ hz, hin⟩
  refine ⟨h.forest, ?_, ?_, ?_, ?_, h.break_stms, h.blocks⟩
  · have hg := (h.edge e he).1
    rw [hsrc] at hg
    exact List.forall_mem_cons.mpr ⟨hg, h.pending⟩
  · exact fun e' he' => h.edge e' (List.mem_of_mem_erase he')
  · intro t ht test l hk hl
    rcases h.cont t ht test l hk hl with he' | hin
    · exact hkept _ he' t rfl
    · exact .inr (hmore _ hin)
  · intro t ht test dest hk
    rcases h.goto t ht test dest hk with ⟨back, he'⟩ | hin
    · exact (hkept _ he' t rfl).imp_left fun he' => ⟨back, he'⟩
    · exact .inr (hmore _ hin)

/-- No other edge comes from elsewhere into a statement but the one of a loop
body inside it. -/
theorem Tracked.eraseBlock {e : CFGEdge} (h : Tracked σ R Z) (hsrc : e.src = .block b) :
    Tracked { σ with cfgEdges := σ.cfgEdges.erase e } R Z := by
  have hkept : ∀ e' ∈ σ.cfgEdges, ∀ t, e'.src = .stm t → e' ∈ σ.cfgEdges.erase e := by
    intro e' he' t ht
    refine (List.mem_erase_of_ne ?_).mpr he'
    rintro rfl
    rw [hsrc] at ht
    cases ht
  refine ⟨h.forest, h.pending, ?_, ?_, ?_, h.break_stms, h.blocks⟩
  · exact fun e' he' => h.edge e' (List.mem_of_mem_erase he')
  · exact fun t ht test l hk hl => (h.cont t ht test l hk hl).imp_left fun he' => hkept _ he' t rfl
  · exact fun t ht test dest hk =>
      (h.goto t ht test dest hk).imp_left fun ⟨back, he'⟩ => ⟨back, hkept _ he' t rfl⟩

theorem Silent.erase {e : CFGEdge} (h : Silent σ Z) :
    Silent { σ with cfgEdges := σ.cfgEdges.erase e } Z :=
  ⟨fun e' he' => h.edge e' (List.mem_of_mem_erase he'), h.break_stms⟩

/-! ## A removal -/

/-- What a removal does to a function: nothing but statements of `gone` go. -/
structure Removed (σ σ' : FlowGraph M) (gone : ℕ → Prop) : Prop where
  shrunk : Shrunk σ.func σ'.func
  length_le : σ'.cfgEdges.length ≤ σ.cfgEdges.length
  gone : ∀ b, ∀ t ∈ (σ.func.block b).stms, t ∉ (σ'.func.block b).stms → gone t

theorem Removed.trans {σ'' : FlowGraph M} {P : ℕ → Prop} (h : Removed σ σ' P)
    (h' : Removed σ' σ'' P) : Removed σ σ'' P where
  shrunk := h.shrunk.trans h'.shrunk
  length_le := h'.length_le.trans h.length_le
  gone b t ht hnot := by
    by_cases hmid : t ∈ (σ'.func.block b).stms
    · exact h'.gone b t hmid hnot
    · exact h.gone b t ht hmid

theorem Removed.mono {P Q : ℕ → Prop} (h : Removed σ σ' P) (hPQ : ∀ t, P t → Q t) :
    Removed σ σ' Q := ⟨h.shrunk, h.length_le, fun b t ht hnot => hPQ t (h.gone b t ht hnot)⟩

/-- What leads to a goto that leads into a statement leads into it. -/
theorem Leads.trans {g : ℕ} {test : M → Bool} {dest : ℕ} (h : Leads σ g t)
    (hk : (σ.func.stm g).kind = .goto test dest) (hg : Leads σ s g) : Leads σ s t := by
  induction h with
  | into hkt hin =>
    have heq := contains_of_blocks (by rw [hk]; rfl) hin
    cases heq
    exact .step hkt hg
  | step hkt _ ih => exact .step hkt ih

/-- What a removal with the fuel `n` does, as the loop over the edges uses it. -/
def RemovesFrom (M : Type) (R : ℕ → Prop) (n : ℕ) : Prop :=
  ∀ (σ : FlowGraph M) (Z : List ℕ) (s : ℕ), σ.cfgEdges.length < n → Tracked σ R (s :: Z) →
    Silent σ Z → (∀ z ∈ Z, ¬ σ.contains s (.stm z) = true) →
    ∃ σ', FlowGraph.removeStmtFrom n (σ.func.stm s).parent s σ = some σ' ∧ Tracked σ' R Z ∧
      Silent σ' Z ∧ Removed σ σ' (fun t => t = s ∨ Leads σ s t) ∧
      s ∉ (σ'.func.block (σ.func.stm s).parent).stms

/-- The goto of an edge into a statement is removed with the edge. -/
theorem RemovesFrom.goto {n g dest : ℕ} {e : CFGEdge} {test : M → Bool} (hrm : RemovesFrom M R n)
    (hn : σ.cfgEdges.length ≤ n) (h : Tracked σ R (s :: Z)) (hs : Silent σ (s :: Z))
    (he : e ∈ σ.cfgEdges) (hin : σ.contains s e.dest = true) (hsrc : e.src = .stm g)
    (hk : (σ.func.stm g).kind = .goto test dest) :
    ∃ σ', FlowGraph.removeStmtFrom n (σ.func.stm g).parent g
        { σ with cfgEdges := σ.cfgEdges.erase e } = some σ' ∧
      Tracked σ' R (s :: Z) ∧ Silent σ' (s :: Z) ∧ σ'.cfgEdges.length < σ.cfgEdges.length ∧
      Removed σ σ' (Leads σ s) := by
  obtain ⟨-, -, hok⟩ := h.edge e he
  have hp := h.forest.parent_lt
  have hlen := List.length_erase_of_mem he
  have hpos := List.length_pos_of_mem he
  have hout := hs.edge e he g hsrc
  have hg := h.eraseGoto he hsrc
  have hs' : Silent { σ with cfgEdges := σ.cfgEdges.erase e } (s :: Z) := hs.erase
  have hlead : Leads σ s g := by
    unfold EdgeOk at hok
    rw [hsrc] at hok
    dsimp only at hok
    rw [hk] at hok
    dsimp only at hok
    rw [hok] at hin
    exact .into hk hin
  have hlt : (σ.cfgEdges.erase e).length < σ.cfgEdges.length := by omega
  -- only the edges are others
  generalize hσ₁ : ({ σ with cfgEdges := σ.cfgEdges.erase e } : FlowGraph M) = σ₁ at hg hs' ⊢
  have hfunc : σ₁.func = σ.func := by rw [← hσ₁]
  have hedges : σ₁.cfgEdges.length < σ.cfgEdges.length := by rwa [← hσ₁]
  have hsame : Shrunk σ.func σ₁.func := by
    rw [hfunc]
    exact .refl
  rw [← hfunc] at hk
  obtain ⟨σ', hrun, h', hsilent, hrem, -⟩ := hrm σ₁ (s :: Z) g (by omega) hg hs' (by
    intro z hz hc
    have heq := contains_of_blocks (by rw [hk]; rfl) hc
    cases heq
    exact hout ⟨g, hz, contains_self⟩)
  rw [hfunc] at hk
  have hlen' := hrem.length_le
  refine ⟨σ', by rwa [← hfunc], h', hsilent, by omega, hsame.trans hrem.shrunk, by omega, ?_⟩
  intro b t ht hnot
  rw [← hfunc] at ht
  rcases hrem.gone b t ht hnot with rfl | hl
  · exact hlead
  · exact (hsame.leads hp hl).trans hk hlead

/-- **The loop over the edges into a statement ends, and nothing leads into it
then.** -/
theorem removeEdges_spec {n m : ℕ} (hrm : RemovesFrom M R n) (hm : σ.cfgEdges.length < m)
    (hn : σ.cfgEdges.length ≤ n) (h : Tracked σ R (s :: Z)) (hs : Silent σ (s :: Z)) :
    ∃ σ', FlowGraph.removeEdges (FlowGraph.removeStmtFrom n) s m σ = some σ' ∧
      Tracked σ' R (s :: Z) ∧ Silent σ' (s :: Z) ∧ Removed σ σ' (Leads σ s) ∧
      ∀ e ∈ σ'.cfgEdges, ¬ σ'.contains s e.dest = true := by
  induction m generalizing σ with
  | zero => omega
  | succ m ih =>
    unfold FlowGraph.removeEdges
    cases hfind : σ.cfgEdges.find? fun e => σ.contains s e.dest with
    | none =>
      refine ⟨σ, rfl, h, hs, ⟨.refl, Nat.le_refl _, fun b t ht hnot => absurd ht hnot⟩, ?_⟩
      intro e he
      exact List.find?_eq_none.mp hfind e he
    | some e =>
      have he := List.mem_of_find?_eq_some hfind
      have hin : σ.contains s e.dest = true := by simpa using List.find?_some hfind
      have hlen := List.length_erase_of_mem he
      have hpos := List.length_pos_of_mem he
      have hlt : (σ.cfgEdges.erase e).length < σ.cfgEdges.length := by omega
      obtain ⟨hpsrc, hpdest, hok⟩ := h.edge e he
      dsimp only
      -- without the edge, and after what must go with it, the loop goes on
      have hnext : ∀ σ₁ : FlowGraph M, Tracked σ₁ R (s :: Z) → Silent σ₁ (s :: Z) →
          σ₁.cfgEdges.length < σ.cfgEdges.length → Removed σ σ₁ (Leads σ s) →
          ∃ σ', FlowGraph.removeEdges (FlowGraph.removeStmtFrom n) s m σ₁ = some σ' ∧
            Tracked σ' R (s :: Z) ∧ Silent σ' (s :: Z) ∧ Removed σ σ' (Leads σ s) ∧
            ∀ e ∈ σ'.cfgEdges, ¬ σ'.contains s e.dest = true := by
        intro σ₁ h₁ hs₁ hlt hrem
        obtain ⟨σ', hrun, h', hs', hrem', hnone⟩ := ih (by omega) (by omega) h₁ hs₁
        exact ⟨σ', hrun, h', hs',
          hrem.trans (hrem'.mono fun t ht => hrem.shrunk.leads h.forest.parent_lt ht), hnone⟩
      cases hsrc : e.src with
      | block b =>
        exact hnext _ (h.eraseBlock hsrc) hs.erase hlt
          ⟨.refl, Nat.le_of_lt hlt, fun b t ht hnot => absurd ht hnot⟩
      | stm g =>
        dsimp only
        cases hk : (σ.func.stm g).kind with
        | goto test dest =>
          have hkind : ({ σ with cfgEdges := σ.cfgEdges.erase e } : FlowGraph M).kind g =
              .goto test dest := hk
          obtain ⟨σ₁, hrun, h₁, hs₁, hlt₁, hrem⟩ := hrm.goto hn h hs he hin hsrc hk
          obtain ⟨σ', hrest, hspec⟩ := hnext σ₁ h₁ hs₁ hlt₁ hrem
          refine ⟨σ', ?_, hspec⟩
          rw [hkind]
          dsimp only
          unfold FlowGraph.parent
          dsimp only
          rw [hrun, Option.bind_some]
          exact hrest
        | _ =>
          -- it would come from the statement itself
          have hmem := h.pending s List.mem_cons_self
          have hinside := contains_src h.forest hmem.1 hpdest hok hsrc (by simp [hk]) hin
          exact absurd ⟨s, List.mem_cons_self, hinside⟩ (hs.edge e he g hsrc)

/-- **A removal ends**, and leaves no trace of the statement and of the gotos that
lead into it. -/
theorem removeStmtFrom_spec (n : ℕ) : RemovesFrom M R n := by
  induction n with
  | zero => exact fun σ Z s hn => absurd hn (Nat.not_lt_zero _)
  | succ n ih =>
    intro σ Z s hn h hs hZ
    obtain ⟨h₁, hs₁⟩ := h.dropJumps hs
    have hle : (σ.dropJumps (σ.func.stm s).parent s).cfgEdges.length ≤ σ.cfgEdges.length :=
      List.length_filter_le _ _
    -- The edges that lead into the statement go, and the gotos they come from, by the hypothesis.
    obtain ⟨σ₂, hrun, h₂, hs₂, hrem, hnone⟩ := removeEdges_spec ih (Nat.lt_succ_self _)
      (by omega) h₁ hs₁
    have hF := h.forest
    have hshrunk : Shrunk σ.func σ₂.func := hrem.shrunk
    have hcont := fun n => hshrunk.contains (σ := σ) hF.parent_lt s n
    have hpar : (σ₂.func.stm s).parent = (σ.func.stm s).parent := by rw [hshrunk.stm]
    obtain ⟨h₃, hs₃⟩ := h₂.eraseStmt hs₂ (fun z hz => by rw [hcont]; exact hZ z hz) hnone
    have herased := eraseStmt_erased (h₂.pending s List.mem_cons_self).1
    rw [hpar] at h₃ hs₃ herased
    refine ⟨σ₂.eraseStmt (σ.func.stm s).parent s, ?_, h₃, hs₃, ⟨?_, ?_, ?_⟩, ?_⟩
    · unfold FlowGraph.removeStmtFrom
      exact congrArg (Option.map _) hrun
    · exact hshrunk.trans herased.shrunk
    · have hlen := hrem.length_le
      rw [eraseStmt_cfgEdges]
      omega
    · intro b t ht hnot
      -- A statement that is gone went with an edge or with the statement itself.
      by_cases hmid : t ∈ (σ₂.func.block b).stms
      · by_contra hne
        rw [not_or] at hne
        exact hnot ((herased.mem h₂.forest.toIsTree).mpr ⟨hmid, hne.1⟩)
      · have hself : Shrunk σ.func (σ.dropJumps (σ.func.stm s).parent s).func := .refl
        exact .inr (hself.leads hF.parent_lt (hrem.gone b t ht hmid))
    · intro hin
      exact ((herased.mem h₂.forest.toIsTree).mp hin).2 rfl

/-- A statement may wait at any time. -/
theorem Tracked.wait (h : Tracked σ R []) (hs : Present σ.func R (.stm s)) :
    Tracked σ R [s] := by
  have hnone : ∀ n, ¬ Inside σ [] n := fun n ⟨z, hz, _⟩ => nomatch hz
  exact ⟨h.forest, List.forall_mem_singleton.mpr hs, h.edge,
    fun t ht test l hk hl => .inl ((h.cont t ht test l hk hl).resolve_right (hnone _)),
    fun t ht test dest hk => .inl ((h.goto t ht test dest hk).resolve_right (hnone _)),
    h.break_stms, h.blocks⟩

theorem Silent.nil : Silent σ [] :=
  ⟨fun _ _ _ _ ⟨_, hz, _⟩ => (nomatch hz), fun _ hz => nomatch hz⟩

/-- **`remove_stmt` ends, and what it leaves is about what is there**; besides the
statement only gotos that lead into it go. -/
theorem removeStmt_spec (h : Tracked σ R []) (hW : Within σ.func R b)
    (hs : s ∈ (σ.func.block b).stms) :
    ∃ σ', σ.removeStmt b s = some σ' ∧ Tracked σ' R [] ∧
      Removed σ σ' (fun t => t = s ∨ Leads σ s t) ∧ s ∉ (σ'.func.block b).stms := by
  have hpar := h.forest.mem b s hs
  have hmem : Present σ.func R (.stm s) := by
    simp only [Present]
    rw [hpar]
    exact ⟨hs, hW⟩
  obtain ⟨σ', hrun, h', -, hrem, hnot⟩ := removeStmtFrom_spec (σ.cfgEdges.length + 1) σ [] s
    (Nat.lt_succ_self _) (h.wait hmem) .nil fun z hz => nomatch hz
  rw [hpar] at hrun hnot
  exact ⟨σ', hrun, h', hrem, hnot⟩

/-! ## The deletion of a tail -/

/-- What goes with the tail of a block: statements of it, and what leads into
them. -/
def WithTail (σ σ' : FlowGraph M) (b index t : ℕ) : Prop :=
  ∃ s ∈ (σ.func.block b).stms.drop index, s ∉ (σ'.func.block b).stms ∧ (t = s ∨ Leads σ s t)

theorem WithTail.of_shrunk {σ₁ : FlowGraph M} {index : ℕ} (h : Shrunk σ.func σ₁.func)
    (hp : σ.func.ParentLt) (ht : WithTail σ₁ σ' b index t) : WithTail σ σ' b index t := by
  obtain ⟨s, hs, hgone, hst⟩ := ht
  exact ⟨s, ((h.stms b).drop index).subset hs, hgone, hst.imp_right (h.leads hp)⟩

/-- The deletion of a tail, with the fuel `n`. -/
theorem deleteTailFrom_spec {n : ℕ} (index : ℕ) (h : Tracked σ R []) (hb : R b)
    (hn : (σ.func.block b).stms.length < n) :
    ∃ σ', FlowGraph.deleteTailFrom b index n σ = some σ' ∧ Tracked σ' R [] ∧
      Removed σ σ' (WithTail σ σ' b index) ∧ (σ'.func.block b).stms.length ≤ index := by
  induction n generalizing σ with
  | zero => omega
  | succ n ih =>
    have hp := h.forest.parent_lt
    unfold FlowGraph.deleteTailFrom
    cases hget : (σ.stms b)[index]? with
    | none =>
      exact ⟨σ, rfl, h, ⟨.refl, Nat.le_refl _, fun c t ht hnot => absurd ht hnot⟩,
        List.getElem?_eq_none_iff.mp hget⟩
    | some s =>
      have hs : s ∈ (σ.func.block b).stms := List.mem_of_getElem? hget
      obtain ⟨σ₁, hrun, h₁, hrem, hnot⟩ := removeStmt_spec h (.root hb) hs
      have hlt : (σ₁.func.block b).stms.length < (σ.func.block b).stms.length := by
        have hsub := hrem.shrunk.stms b
        refine lt_of_le_of_ne hsub.length_le fun heq => hnot ?_
        rwa [hsub.eq_of_length heq]
      obtain ⟨σ', hrest, h', hrem', hlen⟩ := ih h₁ (by omega)
      have htail : Removed σ σ₁ (WithTail σ σ' b index) := hrem.mono fun t ht => by
        refine ⟨s, ?_, fun hin => hnot ((hrem'.shrunk.stms b).subset hin), ht⟩
        refine List.mem_of_getElem? (i := 0) ?_
        rw [List.getElem?_drop]
        exact hget
      refine ⟨σ', ?_, h', htail.trans (hrem'.mono fun t => .of_shrunk hrem.shrunk hp), hlen⟩
      dsimp only
      rw [hrun, Option.bind_some, hrest]

/-- **The deletion of a tail ends**, with no statement left at its index; what
goes is the tail and gotos that lead into it. -/
theorem deleteTail_spec (index : ℕ) (h : Tracked σ R []) (hb : R b) :
    ∃ σ', σ.deleteTail b index = some σ' ∧ Tracked σ' R [] ∧
      Removed σ σ' (WithTail σ σ' b index) ∧ (σ'.func.block b).stms.length ≤ index :=
  deleteTailFrom_spec index h hb (Nat.lt_succ_self _)

end Generate

end CLSmith
