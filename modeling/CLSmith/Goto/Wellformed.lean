import CLSmith.Goto.Generate
/-!
# Functions under construction are well formed

What every event keeps: a block is younger than its parent, a statement
knows the block it is in, and the blocks of a statement were made for it.
-/

namespace CLSmith

namespace Generate

variable {M : Type}

namespace Func

variable {f f' : Func M} {b c p s : ℕ}

/-- A block is younger than its parent. -/
def ParentLt (f : Func M) : Prop := ∀ b p, (f.block b).parent = some p → p < b

theorem mem_chain_self : b ∈ f.chain b := List.mem_cons_self

/-- Fuel past the block's number makes no difference. -/
theorem chainFrom_fuel (hp : f.ParentLt) {n m : ℕ} (hn : b < n) (hm : b < m) :
    f.chainFrom n b = f.chainFrom m b := by
  induction n generalizing b m with
  | zero => omega
  | succ n ih =>
    obtain ⟨m, rfl⟩ : ∃ k, m = k + 1 := ⟨m - 1, by omega⟩
    unfold chainFrom
    cases h : (f.block b).parent with
    | none => rfl
    | some p =>
      have hlt := hp b p h
      have htail : f.chainFrom n p = f.chainFrom m p := ih (by omega) (by omega)
      simp only [htail]

theorem chain_of_parent (hp : f.ParentLt) (h : (f.block b).parent = some p) :
    f.chain b = b :: f.chain p := by
  have hlt := hp b p h
  have htail : f.chainFrom b p = f.chainFrom (p + 1) p := chainFrom_fuel hp hlt (by omega)
  unfold chain
  rw [chainFrom, h]
  simp only [htail]

theorem chain_of_none (h : (f.block b).parent = none) : f.chain b = [b] := by
  unfold chain
  rw [chainFrom, h]

/-- The chain of a block a chain comes by is part of it. -/
theorem chain_subset (hp : f.ParentLt) (h : c ∈ f.chain b) : f.chain c ⊆ f.chain b := by
  induction b using Nat.strong_induction_on with
  | _ b ih =>
    cases hpar : (f.block b).parent with
    | none =>
      rw [chain_of_none hpar] at h
      obtain rfl := List.mem_singleton.mp h
      exact List.Subset.refl _
    | some p =>
      rw [chain_of_parent hp hpar] at h ⊢
      rcases List.mem_cons.mp h with rfl | h
      · rw [chain_of_parent hp hpar]
        exact List.Subset.refl _
      · exact List.Subset.trans (ih p (hp b p hpar) h) (List.subset_cons_self _ _)

/-- A chain is a matter of the parents of the blocks up to its own. -/
theorem chain_congr (hp : f.ParentLt)
    (h : ∀ c ≤ b, (f'.block c).parent = (f.block c).parent) : f'.chain b = f.chain b := by
  have key : ∀ n b, (∀ c ≤ b, (f'.block c).parent = (f.block c).parent) →
      f'.chainFrom n b = f.chainFrom n b := by
    intro n
    induction n with
    | zero => exact fun _ _ => rfl
    | succ n ih =>
      intro b h
      unfold chainFrom
      rw [h b (Nat.le_refl b)]
      cases hpar : (f.block b).parent with
      | none => rfl
      | some p =>
        have hlt := hp b p hpar
        have htail := ih p fun c hc => h c (by omega)
        simp only [htail]
  exact key _ b h

/-- The block `c` was made for a statement of `b`. -/
def MadeFor (f : Func M) (b c : ℕ) (role : Role) : Prop :=
  c < f.nextBlock ∧ (f.block c).parent = some b ∧ (f.block c).role = role

/-- What a statement of the block `b` refers to is there. -/
def Kept (f : Func M) (b : ℕ) : Kind M → Prop
  | .ifElse _ t e => f.MadeFor b t .branch ∧ f.MadeFor b e .branch
  | .forLoop _ _ _ c => f.MadeFor b c .loop
  | .emi i j t e => f.MadeFor b t (.emi i j) ∧ f.MadeFor b e .branch
  | .goto _ dest => dest < f.nextStm
  | _ => True

/-- The blocks of a statement are in the block the statement is in. -/
theorem Kept.parent {k : Kind M} (hk : f.Kept b k) (hc : c ∈ k.blocks) :
    (f.block c).parent = some b := by
  cases k with
  | ifElse test t e =>
    rcases List.mem_cons.mp hc with rfl | hc
    · exact hk.1.2.1
    · obtain rfl := List.mem_singleton.mp hc
      exact hk.2.2.1
  | forLoop init test incr l =>
    obtain rfl := List.mem_singleton.mp hc
    exact hk.2.1
  | emi i j t e =>
    rcases List.mem_cons.mp hc with rfl | hc
    · exact hk.1.2.1
    · obtain rfl := List.mem_singleton.mp hc
      exact hk.2.2.1
  | simple run => cases hc
  | ret => cases hc
  | brk test => cases hc
  | cont test => cases hc
  | goto test dest => cases hc

/-- **A function is well formed.** Blocks and statements are numbered in the order
they are made, a statement stands in its parent only, and its kind fits the blocks it
has. -/
structure Wf (f : Func M) : Prop where
  parent_lt : f.ParentLt
  stack_lt : ∀ b ∈ f.stack, b < f.nextBlock
  made_lt : ∀ b ∈ f.made, b < f.nextBlock
  mem_stms : ∀ b s, s ∈ (f.block b).stms → s < f.nextStm ∧ (f.stm s).parent = b
  stm_lt : ∀ s < f.nextStm, (f.stm s).parent < f.nextBlock
  kept : ∀ s < f.nextStm, f.Kept (f.stm s).parent (f.stm s).kind
  body : (f.block 0).parent = none ∧ (f.block 0).role.isEmi = false

theorem wf_empty : ({} : Func M).Wf where
  parent_lt _ _ h := nomatch h
  stack_lt _ h := nomatch h
  made_lt _ h := nomatch h
  mem_stms _ _ h := nomatch h
  stm_lt s h := absurd h (Nat.not_lt_zero s)
  kept s h := absurd h (Nat.not_lt_zero s)
  body := ⟨rfl, rfl⟩

/-! ## What an event leaves as it is -/

/-- `f'` has the blocks of `f`, up to their variables and statements, and
perhaps more of them. -/
structure Extends (f f' : Func M) : Prop where
  nextBlock_le : f.nextBlock ≤ f'.nextBlock
  nextStm_le : f.nextStm ≤ f'.nextStm
  parent : ∀ b < f.nextBlock, (f'.block b).parent = (f.block b).parent
  role : ∀ b < f.nextBlock, (f'.block b).role = (f.block b).role
  stm : ∀ s < f.nextStm, f'.stm s = f.stm s

theorem Extends.madeFor {role : Role} (h : Extends f f') (hm : f.MadeFor b c role) :
    f'.MadeFor b c role := by
  obtain ⟨hlt, hpar, hrole⟩ := hm
  have hle := h.nextBlock_le
  exact ⟨by omega, (h.parent c hlt).trans hpar, (h.role c hlt).trans hrole⟩

theorem Extends.kept {k : Kind M} (h : Extends f f') (hk : f.Kept b k) : f'.Kept b k := by
  cases k with
  | ifElse test t e => exact ⟨h.madeFor hk.1, h.madeFor hk.2⟩
  | forLoop init test incr c => exact h.madeFor hk
  | emi i j t e => exact ⟨h.madeFor hk.1, h.madeFor hk.2⟩
  | goto test dest => exact Nat.lt_of_lt_of_le hk h.nextStm_le
  | simple run => trivial
  | ret => trivial
  | brk test => trivial
  | cont test => trivial

theorem Extends.chain (h : Extends f f') (hp : f.ParentLt) (hb : b < f.nextBlock) :
    f'.chain b = f.chain b :=
  chain_congr hp fun c hc => h.parent c (by omega)

/-- The blocks of a chain are as old as its own. -/
theorem lt_of_mem_chain (hp : f.ParentLt) (h : c ∈ f.chain b) : c ≤ b := by
  induction b using Nat.strong_induction_on with
  | _ b ih =>
    cases hpar : (f.block b).parent with
    | none =>
      rw [chain_of_none hpar] at h
      exact Nat.le_of_eq (List.mem_singleton.mp h)
    | some p =>
      rw [chain_of_parent hp hpar] at h
      have hlt := hp b p hpar
      rcases List.mem_cons.mp h with rfl | h
      · exact Nat.le_refl _
      · have := ih p hlt h
        omega

/-! ## The events -/

theorem currentBlock_lt (h : f.Wf) (hb : f.currentBlock = some b) : b < f.nextBlock :=
  h.stack_lt b (List.mem_of_mem_head? hb)

theorem openBlock_extends (role : Role) (inArrayLoop : Bool) :
    Extends f (f.openBlock role inArrayLoop) where
  nextBlock_le := Nat.le_succ _
  nextStm_le := Nat.le_refl _
  parent b hb := by
    have hne : b ≠ f.nextBlock := by omega
    show (Function.update f.block f.nextBlock _ b).parent = _
    rw [Function.update_of_ne hne]
  role b hb := by
    have hne : b ≠ f.nextBlock := by omega
    show (Function.update f.block f.nextBlock _ b).role = _
    rw [Function.update_of_ne hne]
  stm s _ := rfl

theorem Wf.openBlock {role : Role} (h : f.Wf) (inArrayLoop : Bool)
    (hrole : role.isEmi = true → f.stack ≠ []) : (f.openBlock role inArrayLoop).Wf := by
  have hext := openBlock_extends (f := f) role inArrayLoop
  have hblock : ∀ b, b ≠ f.nextBlock → (f.openBlock role inArrayLoop).block b = f.block b :=
    fun b hb => Function.update_of_ne hb _ _
  have hnew : (f.openBlock role inArrayLoop).block f.nextBlock =
      ⟨f.currentBlock, role, inArrayLoop, [], []⟩ := Function.update_self ..
  have hsucc : (f.openBlock role inArrayLoop).nextBlock = f.nextBlock + 1 := rfl
  constructor
  · intro b p hp
    by_cases hb : b = f.nextBlock
    · subst hb
      rw [hnew] at hp
      exact currentBlock_lt h hp
    · rw [hblock b hb] at hp
      exact h.parent_lt b p hp
  · intro b hb
    rcases List.mem_cons.mp hb with rfl | hb
    · omega
    · have := h.stack_lt b hb
      omega
  · intro b hb
    have := h.made_lt b hb
    omega
  · intro b s hs
    by_cases hb : b = f.nextBlock
    · subst hb
      rw [hnew] at hs
      cases hs
    · rw [hblock b hb] at hs
      exact h.mem_stms b s hs
  · intro s hs
    have := h.stm_lt s hs
    show (f.stm s).parent < f.nextBlock + 1
    omega
  · exact fun s hs => hext.kept (h.kept s hs)
  · by_cases h0 : f.nextBlock = 0
    · -- the first block: nothing is open around it
      have hstack : f.stack = [] := by
        rw [List.eq_nil_iff_forall_not_mem]
        intro b hb
        have := h.stack_lt b hb
        omega
      rw [h0] at hnew
      rw [hnew]
      refine ⟨?_, ?_⟩
      · show f.stack.head? = none
        rw [hstack]
        rfl
      · by_contra hemi
        exact hrole (by simpa using hemi) hstack
    · rw [hblock 0 (Ne.symm h0)]
      exact h.body

theorem closeBlock_extends : Extends f f.closeBlock :=
  ⟨Nat.le_refl _, Nat.le_refl _, fun _ _ => rfl, fun _ _ => rfl, fun _ _ => rfl⟩

theorem Wf.closeBlock (h : f.Wf) : f.closeBlock.Wf := by
  refine ⟨h.parent_lt, fun b hb => h.stack_lt b (List.mem_of_mem_tail hb), ?_, h.mem_stms,
    h.stm_lt, h.kept, h.body⟩
  intro b hb
  rcases List.mem_append.mp hb with hb | hb
  · exact h.stack_lt b (List.mem_of_mem_head? (Option.mem_toList.mp hb))
  · exact h.made_lt b hb

/-- New variables or statements of a block leave its place as it is. -/
theorem update_parent {B : Block} (hf : f'.block = Function.update f.block b B)
    (hpar : B.parent = (f.block b).parent) (c : ℕ) :
    (f'.block c).parent = (f.block c).parent := by
  rw [hf]
  by_cases hc : c = b
  · subst hc
    rw [Function.update_self, hpar]
  · rw [Function.update_of_ne hc]

theorem update_role {B : Block} (hf : f'.block = Function.update f.block b B)
    (hrole : B.role = (f.block b).role) (c : ℕ) : (f'.block c).role = (f.block c).role := by
  rw [hf]
  by_cases hc : c = b
  · subst hc
    rw [Function.update_self, hrole]
  · rw [Function.update_of_ne hc]

theorem update_body {B : Block} (hf : f'.block = Function.update f.block b B)
    (hpar : B.parent = (f.block b).parent) (hrole : B.role = (f.block b).role) (h : f.Wf) :
    (f'.block 0).parent = none ∧ (f'.block 0).role.isEmi = false := by
  rw [update_parent hf hpar 0, update_role hf hrole 0]
  exact h.body

theorem update_parentLt {B : Block} (hf : f'.block = Function.update f.block b B)
    (hpar : B.parent = (f.block b).parent) (h : f.Wf) : f'.ParentLt := by
  intro c p hp
  rw [update_parent hf hpar c] at hp
  exact h.parent_lt c p hp

theorem newLocal_extends (b v : ℕ) : Extends f (f.newLocal b v) where
  nextBlock_le := Nat.le_refl _
  nextStm_le := Nat.le_refl _
  parent c _ := update_parent rfl (by rfl) c
  role c _ := update_role rfl (by rfl) c
  stm _ _ := rfl

theorem Wf.newLocal (h : f.Wf) (b v : ℕ) : (f.newLocal b v).Wf := by
  refine ⟨?_, h.stack_lt, h.made_lt, ?_, h.stm_lt, ?_, ?_⟩
  · exact update_parentLt rfl (by rfl) h
  · intro c s hs
    refine h.mem_stms c s ?_
    have hs' : s ∈ (Function.update f.block b _ c).stms := hs
    by_cases hc : c = b
    · subst hc
      rw [Function.update_self] at hs'
      exact hs'
    · rwa [Function.update_of_ne hc] at hs'
  · exact fun s hs => (newLocal_extends b v).kept (h.kept s hs)
  · exact update_body rfl (by rfl) (by rfl) h

theorem newStm_extends (b : ℕ) (k : Kind M) (calls stms : List ℕ) :
    Extends f (f.newStm b k calls stms) where
  nextBlock_le := Nat.le_refl _
  nextStm_le := Nat.le_succ _
  parent c _ := update_parent rfl (by rfl) c
  role c _ := update_role rfl (by rfl) c
  stm s hs := by
    have hne : s ≠ f.nextStm := by omega
    exact Function.update_of_ne hne _ _

theorem Wf.newStm {k : Kind M} {calls stms : List ℕ} (h : f.Wf) (hb : b < f.nextBlock)
    (hk : f.Kept b k) (hstms : ∀ s ∈ stms, s = f.nextStm ∨ s ∈ (f.block b).stms) :
    (f.newStm b k calls stms).Wf := by
  have hext := newStm_extends (f := f) b k calls stms
  have hnew : (f.newStm b k calls stms).stm f.nextStm = ⟨b, k, calls⟩ := Function.update_self ..
  have hsucc : (f.newStm b k calls stms).nextStm = f.nextStm + 1 := rfl
  have hold : ∀ c s, s ∈ (f.block c).stms →
      s < f.nextStm + 1 ∧ ((f.newStm b k calls stms).stm s).parent = c := by
    intro c s hs
    obtain ⟨hlt, hpar⟩ := h.mem_stms c s hs
    rw [hext.stm s hlt]
    exact ⟨by omega, hpar⟩
  refine ⟨?_, h.stack_lt, ?_, ?_, ?_, ?_, ?_⟩
  · exact update_parentLt rfl (by rfl) h
  · exact fun c hc => h.made_lt c (List.mem_filter.mp hc).1
  · intro c s hs
    have hs' : s ∈ (Function.update f.block b { f.block b with stms := stms } c).stms := hs
    by_cases hc : c = b
    · subst hc
      rw [Function.update_self] at hs'
      -- in its own block the new statement stands beside those that were there
      rcases hstms s hs' with rfl | hs'
      · rw [hnew]
        exact ⟨by omega, rfl⟩
      · exact hold c s hs'
    · rw [Function.update_of_ne hc] at hs'
      exact hold c s hs'
  · intro s hs
    rcases Nat.lt_succ_iff_lt_or_eq.mp hs with hs | rfl
    · rw [hext.stm s hs]
      exact h.stm_lt s hs
    · rw [hnew]
      exact hb
  · intro s hs
    rcases Nat.lt_succ_iff_lt_or_eq.mp hs with hs | rfl
    · rw [hext.stm s hs]
      exact hext.kept (h.kept s hs)
    · rw [hnew]
      exact hext.kept hk
  · exact update_body rfl (by rfl) (by rfl) h

theorem Fits.kept {k : Kind M} (h : f.Wf) (hk : f.Fits b k) : f.Kept b k := by
  have hwaits : ∀ {c role}, f.Waits b c role → f.MadeFor b c role :=
    fun hw => ⟨h.made_lt _ hw.1, hw.2⟩
  cases k with
  | ifElse test t e => exact ⟨hwaits hk.1, hwaits hk.2⟩
  | forLoop init test incr c => exact hwaits hk
  | emi i j t e => exact ⟨hwaits hk.1, hwaits hk.2⟩
  | goto test dest => exact absurd hk id
  | simple run => trivial
  | ret => trivial
  | brk test => trivial
  | cont test => trivial

theorem removeStmt_extends (s : ℕ) : Extends f (f.removeStmt s) where
  nextBlock_le := Nat.le_refl _
  nextStm_le := Nat.le_refl _
  parent c _ := update_parent rfl (by rfl) c
  role c _ := update_role rfl (by rfl) c
  stm _ _ := rfl

theorem Wf.removeStmt (h : f.Wf) (s : ℕ) : (f.removeStmt s).Wf := by
  refine ⟨?_, h.stack_lt, h.made_lt, ?_, h.stm_lt, ?_, ?_⟩
  · exact update_parentLt rfl (by rfl) h
  · intro c t ht
    refine h.mem_stms c t ?_
    have ht' : t ∈ (Function.update f.block (f.stm s).parent _ c).stms := ht
    by_cases hc : c = (f.stm s).parent
    · subst hc
      rw [Function.update_self] at ht'
      exact List.mem_of_mem_erase ht'
    · rwa [Function.update_of_ne hc] at ht'
  · exact fun t ht => (removeStmt_extends s).kept (h.kept t ht)
  · exact update_body rfl (by rfl) (by rfl) h

/-! ## Jumps -/

theorem mem_of_mem_insertAfter {new t : ℕ} {l : List ℕ} (h : t ∈ insertAfter s new l) :
    t = new ∨ t ∈ l := by
  induction l with
  | nil => cases h
  | cons a l ih =>
    unfold insertAfter at h
    split at h
    · rcases List.mem_cons.mp h with rfl | h
      · exact Or.inr List.mem_cons_self
      · rcases List.mem_cons.mp h with rfl | h
        · exact Or.inl rfl
        · exact Or.inr (List.mem_cons_of_mem _ h)
    · rcases List.mem_cons.mp h with rfl | h
      · exact Or.inr List.mem_cons_self
      · exact (ih h).imp id (List.mem_cons_of_mem _)

/-- **What `makeGoto` inserts**: nothing, or one goto along the jump. -/
theorem makeGoto_cases {j : Jump} {test : M → Bool} {ok : Bool} (h : f.Wf)
    (hj : j.otherStm ∈ (f.block j.block).stms) (hg : f.makeGoto b j test ok = some f') :
    f' = f ∨ ∃ dest stms, f' = f.newStm (j.src f b) (.goto test dest) [] stms ∧
      dest < f.nextStm ∧ (f.stm dest).parent = j.dst f b ∧
      ∀ s ∈ stms, s = f.nextStm ∨ s ∈ (f.block (j.src f b)).stms := by
  unfold makeGoto at hg
  unfold Jump.src Jump.dst
  split at hg
  · next hback =>
    cases hg
    simp only [hback, if_true]
    refine Or.inr ⟨j.otherStm, _, rfl, (h.mem_stms _ _ hj).1, rfl, fun s hs => ?_⟩
    rcases List.mem_append.mp hs with hs | hs
    · exact Or.inr hs
    · exact Or.inl (List.mem_singleton.mp hs)
  · next hforward =>
    simp only [hforward, Bool.false_eq_true, if_false]
    split at hg
    · cases hg
    · next stm hlast =>
      split at hg
      · cases hg
        obtain ⟨hlt, hpar⟩ := h.mem_stms b stm (List.mem_of_getLast? hlast)
        exact Or.inr ⟨stm, _, rfl, hlt, hpar, fun s hs => mem_of_mem_insertAfter hs⟩
      · cases hg
        exact Or.inl rfl

theorem Wf.makeGoto {j : Jump} {test : M → Bool} {ok : Bool} (h : f.Wf) (hb : b < f.nextBlock)
    (hj : j.otherStm ∈ (f.block j.block).stms) (hg : f.makeGoto b j test ok = some f') :
    f'.Wf := by
  obtain rfl | ⟨dest, stms, rfl, hlt, -, hstms⟩ := makeGoto_cases h hj hg
  · exact h
  · refine h.newStm ?_ hlt hstms
    unfold Jump.src
    split
    · exact hb
    · exact h.stm_lt _ (h.mem_stms _ _ hj).1

end Func

end Generate

end CLSmith
