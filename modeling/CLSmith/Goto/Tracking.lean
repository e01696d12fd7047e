import CLSmith.Goto.Flow
import CLSmith.Goto.Jumps
import CLSmith.Goto.PostCreation
import Mathlib.Data.List.Find
/-!
# Functions under construction are tracked

What a fact manager keeps of the control flow is about what is there, in every
state of the generation of a function: an event only ever adds a block or a
statement, and a removal leaves no trace of what it takes away.
-/

namespace CLSmith

namespace Generate

open EMI

variable {M : Type}

/-- The blocks that are in no statement: open ones, and those that wait for theirs. -/
def Roots (f : Func M) (c : ℕ) : Prop := c ∈ f.stack ∨ c ∈ f.made

/-- `f'` has what `f` has, and perhaps a block or a statement more. -/
structure Grown (f f' : Func M) : Prop where
  wf : f.Wf
  wf' : f'.Wf
  ext : Func.Extends f f'
  sub : ∀ b, ∀ s ∈ (f.block b).stms, s ∈ (f'.block b).stms
  old : ∀ b, ∀ s ∈ (f'.block b).stms, s ∈ (f.block b).stms ∨
    s = f.nextStm ∧ ∀ d ∈ (f'.stm s).kind.blocks, d ∈ f.made ∧ ¬ Roots f' d
  nodup : ∀ b, (f.block b).stms.Nodup → (f'.block b).stms.Nodup
  root : ∀ c, Roots f c → Roots f' c ∨
    ∃ b, Roots f' b ∧ f.nextStm ∈ (f'.block b).stms ∧ c ∈ (f'.stm f.nextStm).kind.blocks
  root_old : ∀ c, Roots f' c → c < f.nextBlock → Roots f c
  root_parent : ∀ c p, Roots f' c → (f'.block c).parent = some p → Roots f' p

variable {f f' : Func M} {σ σ' : FlowGraph M} {b c d s t : ℕ}

/-! ## Well-formed functions -/

theorem Func.Kept.lt {k : Kind M} (hk : f.Kept b k) (hc : c ∈ k.blocks) : c < f.nextBlock := by
  cases k with
  | ifElse test t e =>
    rcases List.mem_cons.mp hc with rfl | hc
    · exact hk.1.1
    · obtain rfl := List.mem_singleton.mp hc
      exact hk.2.1
  | forLoop init test incr l =>
    obtain rfl := List.mem_singleton.mp hc
    exact hk.1
  | emi i j t e =>
    rcases List.mem_cons.mp hc with rfl | hc
    · exact hk.1.1
    · obtain rfl := List.mem_singleton.mp hc
      exact hk.2.1
  | simple run => cases hc
  | ret => cases hc
  | brk test => cases hc
  | cont test => cases hc
  | goto test dest => cases hc

/-- A loop body is in a for. -/
theorem Func.Kept.loop {k : Kind M} (hk : f.Kept b k) (hc : c ∈ k.blocks)
    (hrole : (f.block c).role = .loop) : ∃ init test incr, k = .forLoop init test incr c := by
  cases k with
  | ifElse test t e =>
    rcases List.mem_cons.mp hc with rfl | hc
    · rw [hk.1.2.2] at hrole
      cases hrole
    · obtain rfl := List.mem_singleton.mp hc
      rw [hk.2.2.2] at hrole
      cases hrole
  | forLoop init test incr l =>
    obtain rfl := List.mem_singleton.mp hc
    exact ⟨init, test, incr, rfl⟩
  | emi i j t e =>
    rcases List.mem_cons.mp hc with rfl | hc
    · rw [hk.1.2.2] at hrole
      cases hrole
    · obtain rfl := List.mem_singleton.mp hc
      rw [hk.2.2.2] at hrole
      cases hrole
  | simple run => cases hc
  | ret => cases hc
  | brk test => cases hc
  | cont test => cases hc
  | goto test dest => cases hc

theorem Func.current_mem (hb : f.currentBlock = some b) : b ∈ f.stack :=
  List.mem_of_mem_head? hb

namespace Func.Wf

variable (h : f.Wf)
include h

theorem owns_lt (ho : Owns f s d) : s < f.nextStm := (h.mem_stms _ s ho.1).1

theorem owned_lt (ho : Owns f s d) : d < f.nextBlock := (h.kept s (h.owns_lt ho)).lt ho.2

/-- A block that is not made has no statements. -/
theorem stms_nil (hb : f.nextBlock ≤ b) : (f.block b).stms = [] := by
  refine List.eq_nil_iff_forall_not_mem.mpr fun s hs => ?_
  obtain ⟨hlt, hpar⟩ := h.mem_stms b s hs
  have := h.stm_lt s hlt
  omega

theorem root_lt (hr : Roots f c) : c < f.nextBlock :=
  hr.elim (h.stack_lt c) (h.made_lt c)

theorem within_lt (hW : Within f (Roots f) c) : c < f.nextBlock := by
  cases hW with
  | root hr => exact h.root_lt hr
  | nested _ hs hd => exact (h.kept _ (h.mem_stms _ _ hs).1).lt hd

/-- Statements of a well-formed function form a tree once they are there only once
and share no blocks. -/
theorem isTree (hnodup : ∀ c, (f.block c).stms.Nodup)
    (howner : ∀ s s' d, Owns f s d → Owns f s' d → s = s') : IsTree f where
  parent_lt := h.parent_lt
  mem c s hs := (h.mem_stms c s hs).2
  nodup := hnodup
  nested s _ ho := (h.kept s (h.owns_lt ho)).parent ho.2
  owner := howner
  loop s _ ho hrole := (h.kept s (h.owns_lt ho)).loop ho.2 hrole

end Func.Wf

theorem Shrunk.wf (h : Shrunk f f') (hw : f.Wf) : f'.Wf where
  parent_lt b p hp := hw.parent_lt b p (by rwa [← h.parent])
  stack_lt := by
    rw [h.stack, h.nextBlock]
    exact hw.stack_lt
  made_lt := by
    rw [h.made, h.nextBlock]
    exact hw.made_lt
  mem_stms b s hs := by
    rw [h.nextStm, h.stm]
    exact hw.mem_stms b s ((h.stms b).subset hs)
  stm_lt := by
    rw [h.nextStm, h.stm, h.nextBlock]
    exact hw.stm_lt
  kept := by
    have hext : Func.Extends f f' :=
      ⟨Nat.le_of_eq h.nextBlock.symm, Nat.le_of_eq h.nextStm.symm, fun b _ => h.parent b,
        fun b _ => h.role b, fun s _ => congrFun h.stm s⟩
    rw [h.nextStm, h.stm]
    exact fun s hs => hext.kept (hw.kept s hs)
  body := by
    rw [h.parent, h.role]
    exact hw.body

/-! ## More blocks and statements -/

namespace Grown

variable (h : Grown f f')
include h

theorem stm_old (hs : s ∈ (f.block b).stms) : f'.stm s = f.stm s :=
  h.ext.stm s (h.wf.mem_stms b s hs).1

theorem within (hW : Within f (Roots f) c) : Within f' (Roots f') c := by
  induction hW with
  | root hr =>
    rcases h.root _ hr with hr | ⟨b, hb, hs, hd⟩
    · exact .root hr
    · exact (Within.root hb).nested hs hd
  | nested _ hs hd ih =>
    refine ih.nested (h.sub _ _ hs) ?_
    rwa [h.stm_old hs]

theorem within_old (hW : Within f' (Roots f') c) (hc : c < f.nextBlock) :
    Within f (Roots f) c := by
  induction hW with
  | root hr => exact .root (h.root_old _ hr hc)
  | @nested c d s hW' hs hd ih =>
    rcases h.old c s hs with hs | ⟨rfl, hblocks⟩
    · obtain ⟨hlt, hpar⟩ := h.wf.mem_stms c s hs
      have hplt := h.wf.stm_lt s hlt
      rw [h.ext.stm s hlt] at hd
      exact (ih (by omega)).nested hs hd
    · exact .root (.inr (hblocks d hd).1)

theorem present {n : Node} (hn : Present f (Roots f) n) : Present f' (Roots f') n := by
  cases n with
  | stm s =>
    obtain ⟨hs, hW⟩ := hn
    simp only [Present]
    rw [h.stm_old hs]
    exact ⟨h.sub _ _ hs, h.within hW⟩
  | block b => exact h.within hn

theorem present_old (hs : s < f.nextStm) (hp : Present f' (Roots f') (.stm s)) :
    Present f (Roots f) (.stm s) := by
  obtain ⟨hmem, hW⟩ := hp
  rw [h.ext.stm s hs] at hmem hW
  refine ⟨?_, h.within_old hW (h.wf.stm_lt s hs)⟩
  rcases h.old _ s hmem with hmem | ⟨rfl, -⟩
  · exact hmem
  · exact absurd hs (Nat.lt_irrefl _)

/-- A block of a statement that was there, or of the new one. -/
theorem owns_cases (ho : Owns f' s d) :
    Owns f s d ∨ s = f.nextStm ∧ d ∈ f.made ∧ ¬ Roots f' d := by
  rcases h.old _ s ho.1 with hs | ⟨rfl, hblocks⟩
  · have heq := h.stm_old hs
    have hd := ho.2
    rw [heq] at hs hd
    exact .inl ⟨hs, hd⟩
  · exact .inr ⟨rfl, hblocks d ho.2⟩

theorem isForest (hF : IsForest f (Roots f)) : IsForest f' (Roots f') where
  toIsTree := h.wf'.isTree (fun c => h.nodup c (hF.nodup c)) fun s s' d ho ho' => by
    rcases h.owns_cases ho with ho | ⟨rfl, hmade, -⟩
    · rcases h.owns_cases ho' with ho' | ⟨rfl, hmade, -⟩
      · exact hF.owner s s' d ho ho'
      · exact absurd ho (hF.root_owner d s (.inr hmade))
    · rcases h.owns_cases ho' with ho' | ⟨rfl, -, -⟩
      · exact absurd ho' (hF.root_owner d s' (.inr hmade))
      · rfl
  root_parent := h.root_parent
  root_owner r s hr ho := by
    rcases h.owns_cases ho with ho | ⟨-, -, hnot⟩
    · exact hF.root_owner r s (h.root_old r hr (h.wf.owned_lt ho)) ho
    · exact hnot hr
  lt_nextBlock _ := h.wf'.within_lt

theorem chain (hb : b < f.nextBlock) : f'.chain b = f.chain b := h.ext.chain h.wf.parent_lt hb

theorem loopBody (hs : s < f.nextStm) : EMI.loopBody f' s = EMI.loopBody f s := by
  have hlt := h.wf.stm_lt s hs
  unfold EMI.loopBody
  rw [h.ext.stm s hs, h.chain hlt]
  refine List.find?_congr fun c hc => ?_
  have hle := Func.lt_of_mem_chain h.wf.parent_lt hc
  rw [h.ext.role c (by omega)]

theorem edgeOk {e : CFGEdge} (hsrc : Present f (Roots f) e.src)
    (hdest : Present f (Roots f) e.dest) (he : EdgeOk f e) : EdgeOk f' e := by
  unfold EdgeOk at he ⊢
  cases heq : e.src with
  | block b =>
    rw [heq] at he
    exact he
  | stm s =>
    rw [heq] at he hsrc
    have hs : s < f.nextStm := (h.wf.mem_stms _ s hsrc.1).1
    simp only [h.ext.stm s hs, h.loopBody hs]
    dsimp only at he
    split at he
    · next hk => exact he
    · next hk =>
      obtain ⟨l, s', hl, hin, hd⟩ := he
      rw [hd] at hdest
      exact ⟨l, s', hl, by rwa [h.stm_old hdest.1], hd⟩
    · next hk => exact he
    · exact he

end Grown

/-- **What is tracked stays so** when the new edges, and the new statements, are as
they should be. -/
theorem Tracked.grow (h : Tracked σ (Roots σ.func) []) (hg : Grown σ.func σ'.func)
    (hunmade : ∀ s, σ.func.nextStm ≤ s → (σ.func.stm s).kind = .ret)
    (hkeep : σ.cfgEdges ⊆ σ'.cfgEdges)
    (hedge : ∀ e ∈ σ'.cfgEdges, e ∈ σ.cfgEdges ∨ Present σ'.func (Roots σ'.func) e.src ∧
      Present σ'.func (Roots σ'.func) e.dest ∧ EdgeOk σ'.func e)
    (hcont : ∀ s, σ.func.nextStm ≤ s → Present σ'.func (Roots σ'.func) (.stm s) → ∀ test l,
      (σ'.func.stm s).kind = .cont test → loopBody σ'.func s = some l →
      (⟨.stm s, .block l, false, true⟩ : CFGEdge) ∈ σ'.cfgEdges)
    (hgoto : ∀ s, σ.func.nextStm ≤ s → Present σ'.func (Roots σ'.func) (.stm s) → ∀ test dest,
      (σ'.func.stm s).kind = .goto test dest →
      ∃ back, (⟨.stm s, .stm dest, false, back⟩ : CFGEdge) ∈ σ'.cfgEdges)
    (hbreak : ∀ b, ∀ s ∈ σ'.breakStms b, s ∈ σ.breakStms b ∨
      (∃ test, (σ'.func.stm s).kind = .brk test) ∧ loopBody σ'.func s = some b ∧
        Present σ'.func (Roots σ'.func) (.stm s))
    (hblocks : ∀ b ∈ σ'.func.blocks, b ∈ σ.func.blocks ∨ Roots σ'.func b) :
    Tracked σ' (Roots σ'.func) [] := by
  -- no removal is under way, so that nothing is excepted
  have hnone : ∀ n, ¬ Inside σ [] n := by
    rintro n ⟨z, hz, -⟩
    cases hz
  refine ⟨hg.isForest h.forest, fun z hz => absurd hz List.not_mem_nil, ?_, ?_, ?_, ?_, ?_⟩
  · intro e he
    rcases hedge e he with he | he
    · obtain ⟨hsrc, hdest, hok⟩ := h.edge e he
      exact ⟨hg.present hsrc, hg.present hdest, hg.edgeOk hsrc hdest hok⟩
    · exact he
  · intro s hs test l hk hl
    by_cases hlt : s < σ.func.nextStm
    · rw [hg.ext.stm s hlt] at hk
      rw [hg.loopBody hlt] at hl
      have he := (h.cont s (hg.present_old hlt hs) test l hk hl).resolve_right (hnone _)
      exact .inl (hkeep he)
    · exact .inl (hcont s (by omega) hs test l hk hl)
  · intro s hs test dest hk
    by_cases hlt : s < σ.func.nextStm
    · rw [hg.ext.stm s hlt] at hk
      obtain ⟨back, he⟩ :=
        (h.goto s (hg.present_old hlt hs) test dest hk).resolve_right (hnone _)
      exact .inl ⟨back, hkeep he⟩
    · exact .inl (hgoto s (by omega) hs test dest hk)
  · intro b s hs
    rcases hbreak b s hs with hs | ⟨hk, hl, hp⟩
    · obtain ⟨⟨test, hk⟩, hl, hp⟩ := h.break_stms b s hs
      -- a break of a list was made before, and keeps its loop
      have hlt : s < σ.func.nextStm := by
        by_contra hge
        rw [hunmade s (by omega)] at hk
        cases hk
      have hb := Func.lt_of_mem_chain hg.wf.parent_lt (List.mem_of_find?_eq_some hl)
      have hplt := hg.wf.stm_lt s hlt
      rw [hg.ext.stm s hlt, hg.loopBody hlt]
      exact ⟨⟨test, hk⟩, hl, fun hW => hg.present (hp (hg.within_old hW (by omega)))⟩
    · exact ⟨hk, hl, fun _ => hp⟩
  · intro b hb
    rcases hblocks b hb with hb | hb
    · exact hg.within (h.blocks b hb)
    · exact .root hb

/-- Without a new statement, the edges that were there are all. -/
theorem Tracked.grow_func {f' : Func M} (h : Tracked σ (Roots σ.func) []) (hg : Grown σ.func f')
    (hunmade : ∀ s, σ.func.nextStm ≤ s → (σ.func.stm s).kind = .ret)
    (hnext : f'.nextStm = σ.func.nextStm)
    (hblocks : ∀ b ∈ f'.blocks, b ∈ σ.func.blocks ∨ Roots f' b) :
    Tracked { σ with func := f' } (Roots f') [] := by
  have hno : ∀ s, σ.func.nextStm ≤ s → ¬ Present f' (Roots f') (.stm s) := by
    intro s hs hp
    have := (hg.wf'.mem_stms _ s hp.1).1
    omega
  exact @Tracked.grow M σ { σ with func := f' } h hg hunmade (List.Subset.refl _)
    (fun e he => .inl he) (fun s hs hp => absurd hp (hno s hs))
    (fun s hs hp => absurd hp (hno s hs)) (fun b s hs => .inl hs) hblocks

/-! ## The generation of a function -/

/-- **A function under construction**, with its control flow. The open blocks are
in one another, the blocks that wait are in open ones. -/
structure Building (σ : FlowGraph M) : Prop where
  wf : σ.func.Wf
  tracked : Tracked σ (Roots σ.func) []
  unmade : ∀ s, σ.func.nextStm ≤ s → (σ.func.stm s).kind = .ret
  sorted : σ.func.stack.Pairwise (· > ·)
  stack_parent : ∀ b ∈ σ.func.stack, ∀ p, (σ.func.block b).parent = some p → p ∈ σ.func.stack
  made_parent : ∀ c ∈ σ.func.made, ∀ p, (σ.func.block c).parent = some p → p ∈ σ.func.stack
  apart : ∀ c ∈ σ.func.made, c ∉ σ.func.stack
  orphan : ∀ c < σ.func.nextBlock, (σ.func.block c).parent = none → c = 0

theorem building_empty : Building ({ func := {} } : FlowGraph M) where
  wf := Func.wf_empty
  tracked :=
    { forest :=
        { toIsTree := Func.wf_empty.isTree (fun _ => List.nodup_nil)
            fun _ _ _ ho _ => absurd ho.1 List.not_mem_nil
          root_parent := fun _ _ hr => hr.elim (fun h => absurd h List.not_mem_nil)
            fun h => absurd h List.not_mem_nil
          root_owner := fun _ _ _ ho => absurd ho.1 List.not_mem_nil
          lt_nextBlock := fun _ => Func.wf_empty.within_lt }
      pending := fun _ hz => absurd hz List.not_mem_nil
      edge := fun _ he => absurd he List.not_mem_nil
      cont := fun _ hs => absurd hs.1 List.not_mem_nil
      goto := fun _ hs => absurd hs.1 List.not_mem_nil
      break_stms := fun _ _ hs => absurd hs List.not_mem_nil
      blocks := fun _ hb => absurd hb List.not_mem_nil }
  unmade _ _ := rfl
  sorted := List.Pairwise.nil
  stack_parent _ hb := absurd hb List.not_mem_nil
  made_parent _ hc := absurd hc List.not_mem_nil
  apart _ hc := absurd hc List.not_mem_nil
  orphan c hc := absurd hc (Nat.not_lt_zero c)

namespace Building

variable (h : Building σ)
include h

theorem stack_lt (hb : b ∈ σ.func.stack) : b < σ.func.nextBlock := h.wf.stack_lt b hb

/-- The body is around every block. -/
theorem body_mem_chain (hb : b < σ.func.nextBlock) : 0 ∈ σ.func.chain b := by
  induction b using Nat.strong_induction_on with
  | _ b ih =>
    cases hpar : (σ.func.block b).parent with
    | none =>
      obtain rfl := h.orphan b hb hpar
      exact Func.mem_chain_self
    | some p =>
      have hlt := h.wf.parent_lt b p hpar
      rw [Func.chain_of_parent h.wf.parent_lt hpar]
      exact List.mem_cons_of_mem _ (ih p hlt (by omega))

/-! ### Blocks -/

theorem grown_openBlock {role : Role} {inArrayLoop : Bool}
    (ho : σ.func.MayOpen role inArrayLoop) :
    Grown σ.func (σ.func.openBlock role inArrayLoop) := by
  have hblock : ∀ b, b ≠ σ.func.nextBlock →
      (σ.func.openBlock role inArrayLoop).block b = σ.func.block b :=
    fun b hb => Function.update_of_ne hb _ _
  have hnew : (σ.func.openBlock role inArrayLoop).block σ.func.nextBlock =
      ⟨σ.func.currentBlock, role, inArrayLoop, [], []⟩ := Function.update_self ..
  have hstms : ∀ b, ((σ.func.openBlock role inArrayLoop).block b).stms = (σ.func.block b).stms := by
    intro b
    by_cases hb : b = σ.func.nextBlock
    · rw [hb, hnew, h.wf.stms_nil (Nat.le_refl _)]
    · rw [hblock b hb]
  refine ⟨h.wf, h.wf.openBlock inArrayLoop ?_, Func.openBlock_extends role inArrayLoop, ?_, ?_, ?_,
    ?_, ?_, ?_⟩
  · intro hemi hnil
    rw [ho.1.mp hnil] at hemi
    cases hemi
  · intro b s hs
    rwa [hstms]
  · intro b s hs
    rw [hstms] at hs
    exact .inl hs
  · intro b hb
    rwa [hstms]
  · exact fun c hc => .inl (hc.imp_left (List.mem_cons_of_mem _))
  · intro c hc hlt
    refine hc.imp_left fun hc => ?_
    rcases List.mem_cons.mp hc with rfl | hc
    · exact absurd hlt (Nat.lt_irrefl _)
    · exact hc
  · intro c p hc hp
    refine .inl (List.mem_cons_of_mem _ ?_)
    by_cases hb : c = σ.func.nextBlock
    · rw [hb, hnew] at hp
      exact List.mem_of_mem_head? hp
    · rw [hblock c hb] at hp
      rcases hc with hc | hc
      · exact h.stack_parent c ((List.mem_cons.mp hc).resolve_left hb) p hp
      · exact h.made_parent c hc p hp

theorem openBlock {role : Role} {inArrayLoop : Bool} (ho : σ.func.MayOpen role inArrayLoop) :
    Building { σ with func := σ.func.openBlock role inArrayLoop } := by
  have hg := h.grown_openBlock ho
  have hblock : ∀ b, b ≠ σ.func.nextBlock →
      (σ.func.openBlock role inArrayLoop).block b = σ.func.block b :=
    fun b hb => Function.update_of_ne hb _ _
  have hnew : (σ.func.openBlock role inArrayLoop).block σ.func.nextBlock =
      ⟨σ.func.currentBlock, role, inArrayLoop, [], []⟩ := Function.update_self ..
  refine ⟨hg.wf', h.tracked.grow_func hg h.unmade rfl ?_, h.unmade, ?_, ?_, ?_, ?_, ?_⟩
  · intro b hb
    refine (List.mem_append.mp hb).imp_right fun hb => .inl ?_
    rw [List.mem_singleton.mp hb]
    exact List.mem_cons_self
  · exact List.pairwise_cons.mpr ⟨fun b hb => h.stack_lt hb, h.sorted⟩
  · intro b hb p hp
    refine List.mem_cons_of_mem _ ?_
    rcases List.mem_cons.mp hb with rfl | hb
    · dsimp only at hp
      rw [hnew] at hp
      exact List.mem_of_mem_head? hp
    · have := h.stack_lt hb
      dsimp only at hp
      rw [hblock b (by omega)] at hp
      exact h.stack_parent b hb p hp
  · intro c hc p hp
    have := h.wf.made_lt c hc
    dsimp only at hp
    rw [hblock c (by omega)] at hp
    exact List.mem_cons_of_mem _ (h.made_parent c hc p hp)
  · intro c hc hin
    have := h.wf.made_lt c hc
    rcases List.mem_cons.mp hin with rfl | hin
    · omega
    · exact h.apart c hc hin
  · intro c hc hp
    dsimp only at hp
    rcases Nat.lt_succ_iff_lt_or_eq.mp hc with hc | rfl
    · rw [hblock c (by omega)] at hp
      exact h.orphan c hc hp
    · rw [hnew] at hp
      exact ho.2.1 (List.head?_eq_none_iff.mp hp)

theorem closeBlock (hc : σ.func.MayClose) : Building { σ with func := σ.func.closeBlock } := by
  obtain ⟨b, rest, hstack⟩ := List.exists_cons_of_ne_nil hc.1
  have hrest : σ.func.closeBlock.stack = rest := by
    unfold Func.closeBlock
    rw [hstack]
    rfl
  have hmade : σ.func.closeBlock.made = b :: σ.func.made := by
    unfold Func.closeBlock
    rw [hstack]
    rfl
  have hsorted := h.sorted
  rw [hstack] at hsorted
  obtain ⟨hgt, hsorted⟩ := List.pairwise_cons.mp hsorted
  have hroots : ∀ c, Roots σ.func.closeBlock c ↔ Roots σ.func c := by
    intro c
    unfold Roots
    rw [hrest, hmade, hstack, List.mem_cons, List.mem_cons]
    exact or_left_comm.trans or_assoc.symm
  -- what is open and older than the block is open without it
  have hopen : ∀ p ∈ σ.func.stack, p ≠ b → p ∈ rest := by
    intro p hp hne
    rw [hstack] at hp
    exact (List.mem_cons.mp hp).resolve_left hne
  have hb : b ∈ σ.func.stack := by
    rw [hstack]
    exact List.mem_cons_self
  have hcurrent : σ.func.currentBlock = some b := by
    unfold Func.currentBlock
    rw [hstack]
    rfl
  have hg : Grown σ.func σ.func.closeBlock := by
    refine ⟨h.wf, h.wf.closeBlock, Func.closeBlock_extends, fun _ _ hs => hs,
      fun _ _ hs => .inl hs, fun _ hn => hn, fun c hc => .inl ((hroots c).mpr hc),
      fun c hc _ => (hroots c).mp hc, ?_⟩
    intro c p hc hp
    exact (hroots p).mpr (h.tracked.forest.root_parent c p ((hroots c).mp hc) hp)
  refine ⟨hg.wf', h.tracked.grow_func hg h.unmade rfl fun b hb => .inl hb, h.unmade, ?_, ?_, ?_, ?_,
    h.orphan⟩
  · dsimp only
    rwa [hrest]
  · intro c hc p hp
    dsimp only at hc hp ⊢
    rw [hrest] at hc ⊢
    have hlt := h.wf.parent_lt c p hp
    have hcb := hgt c hc
    refine hopen p (h.stack_parent c ?_ p hp) (by omega)
    rw [hstack]
    exact List.mem_cons_of_mem _ hc
  · intro c hin p hp
    dsimp only at hin hp ⊢
    rw [hmade] at hin
    rw [hrest]
    rcases List.mem_cons.mp hin with rfl | hmem
    · have hlt := h.wf.parent_lt c p hp
      exact hopen p (h.stack_parent c hb p hp) (by omega)
    · refine hopen p (h.made_parent c hmem p hp) fun hpb => hc.2 c hmem ?_
      rw [hcurrent, ← hpb]
      exact hp
  · intro c hin hst
    dsimp only at hin hst
    rw [hmade] at hin
    rw [hrest] at hst
    rcases List.mem_cons.mp hin with rfl | hin
    · have := hgt c hst
      omega
    · refine h.apart c hin ?_
      rw [hstack]
      exact List.mem_cons_of_mem _ hst

/-! ### Local variables -/

theorem newLocal (b v : ℕ) : Building { σ with func := σ.func.newLocal b v } := by
  have hstms : ∀ c, ((σ.func.newLocal b v).block c).stms = (σ.func.block c).stms := by
    intro c
    by_cases hc : c = b
    · rw [hc]
      simp [Func.newLocal]
    · simp [Func.newLocal, hc]
  have hparent : ∀ c, ((σ.func.newLocal b v).block c).parent = (σ.func.block c).parent :=
    Func.update_parent rfl rfl
  have hg : Grown σ.func (σ.func.newLocal b v) := by
    refine ⟨h.wf, h.wf.newLocal b v, Func.newLocal_extends b v, ?_, ?_, ?_, fun c hc => .inl hc,
      fun c hc _ => hc, ?_⟩
    · intro c s hs
      rwa [hstms]
    · intro c s hs
      rw [hstms] at hs
      exact .inl hs
    · intro c hn
      rwa [hstms]
    · intro c p hc hp
      rw [hparent] at hp
      exact h.tracked.forest.root_parent c p hc hp
  refine ⟨hg.wf', h.tracked.grow_func hg h.unmade rfl fun b hb => .inl hb, h.unmade, h.sorted, ?_,
    ?_, h.apart, ?_⟩
  · intro c hc p hp
    dsimp only at hp
    rw [hparent] at hp
    exact h.stack_parent c hc p hp
  · intro c hc p hp
    dsimp only at hp
    rw [hparent] at hp
    exact h.made_parent c hc p hp
  · intro c hc hp
    dsimp only at hp
    rw [hparent] at hp
    exact h.orphan c hc hp

/-! ### Statements -/

/-- A new statement of an open block, or one without blocks anywhere. -/
theorem grown_newStm {k : Kind M} {calls stms : List ℕ} (hb : b < σ.func.nextBlock)
    (hk : σ.func.Kept b k) (hblocks : ∀ d ∈ k.blocks, d ∈ σ.func.made ∧ b ∈ σ.func.stack)
    (hsub : ∀ s ∈ (σ.func.block b).stms, s ∈ stms)
    (hstms : ∀ s ∈ stms, s = σ.func.nextStm ∨ s ∈ (σ.func.block b).stms)
    (hnew : σ.func.nextStm ∈ stms) (hnodup : stms.Nodup) :
    Grown σ.func (σ.func.newStm b k calls stms) := by
  have hself : ((σ.func.newStm b k calls stms).block b).stms = stms := by
    simp [Func.newStm, Func.setStms]
  have hother : ∀ c, c ≠ b →
      ((σ.func.newStm b k calls stms).block c).stms = (σ.func.block c).stms := by
    intro c hc
    simp [Func.newStm, Func.setStms, hc]
  have hkind : ((σ.func.newStm b k calls stms).stm σ.func.nextStm).kind = k := by
    simp [Func.newStm]
  have hmade : ∀ c, c ∈ (σ.func.newStm b k calls stms).made ↔ c ∈ σ.func.made ∧ c ∉ k.blocks := by
    intro c
    simp [Func.newStm, Func.setStms]
  refine ⟨h.wf, h.wf.newStm hb hk hstms, Func.newStm_extends b k calls stms, ?_, ?_, ?_, ?_, ?_, ?_⟩
  · intro c s hs
    by_cases hc : c = b
    · subst hc
      rw [hself]
      exact hsub s hs
    · rwa [hother c hc]
  · intro c s hs
    by_cases hc : c = b
    · subst hc
      rw [hself] at hs
      rcases hstms s hs with rfl | hs
      · refine .inr ⟨rfl, fun d hd => ?_⟩
        rw [hkind] at hd
        obtain ⟨hmem, -⟩ := hblocks d hd
        refine ⟨hmem, ?_⟩
        rintro (hr | hr)
        · exact h.apart d hmem hr
        · exact ((hmade d).mp hr).2 hd
      · exact .inl hs
    · rw [hother c hc] at hs
      exact .inl hs
  · intro c hn
    by_cases hc : c = b
    · subst hc
      rwa [hself]
    · rwa [hother c hc]
  · rintro c (hc | hc)
    · exact .inl (.inl hc)
    -- the blocks of the new statement were roots, and are nested from here on
    · by_cases hin : c ∈ k.blocks
      · refine .inr ⟨b, .inl (hblocks c hin).2, by rwa [hself], by rwa [hkind]⟩
      · exact .inl (.inr ((hmade c).mpr ⟨hc, hin⟩))
  · exact fun c hc _ => hc.imp_right fun hc => ((hmade c).mp hc).1
  · intro c p hc hp
    have hpar : (σ.func.block c).parent = some p := by
      rwa [← @Func.update_parent M σ.func (σ.func.newStm b k calls stms) b _ rfl rfl c]
    refine .inl ?_
    rcases hc with hc | hc
    · exact h.stack_parent c hc p hpar
    · exact h.made_parent c ((hmade c).mp hc).1 p hpar

/-- What a new statement leaves of the invariant but for the edges. -/
theorem newStm {k : Kind M} {calls stms : List ℕ} {σ' : FlowGraph M}
    (hfunc : σ'.func = σ.func.newStm b k calls stms)
    (hg : Grown σ.func (σ.func.newStm b k calls stms))
    (htracked : Tracked σ' (Roots σ'.func) []) : Building σ' := by
  have hparent : ∀ c, (σ'.func.block c).parent = (σ.func.block c).parent := by
    rw [hfunc]
    exact Func.update_parent rfl rfl
  have hmade : ∀ c ∈ σ'.func.made, c ∈ σ.func.made := by
    rw [hfunc]
    exact fun c hc => (List.mem_filter.mp hc).1
  have hstack : σ'.func.stack = σ.func.stack := by
    rw [hfunc]
    rfl
  refine ⟨by rw [hfunc]; exact hg.wf', htracked, ?_, ?_, ?_, ?_, ?_, ?_⟩
  · rw [hfunc]
    intro s hs
    have hlt : σ.func.nextStm + 1 ≤ s := hs
    have hold : (σ.func.newStm b k calls stms).stm s = σ.func.stm s :=
      Function.update_of_ne (by omega) _ _
    rw [hold]
    exact h.unmade s (by omega)
  · rw [hstack]
    exact h.sorted
  · intro c hc p hp
    rw [hparent] at hp
    rw [hstack] at hc ⊢
    exact h.stack_parent c hc p hp
  · intro c hc p hp
    rw [hparent] at hp
    rw [hstack]
    exact h.made_parent c (hmade c hc) p hp
  · intro c hc
    rw [hstack]
    exact h.apart c (hmade c hc)
  · intro c hc hp
    rw [hparent] at hp
    rw [hfunc] at hc
    exact h.orphan c hc hp

theorem not_mem_stms : σ.func.nextStm ∉ (σ.func.block b).stms := by
  intro hs
  have := (h.wf.mem_stms b _ hs).1
  omega

/-- The loop body around a new statement of the block `b`. -/
theorem loopBody_newStm {k : Kind M} {calls stms : List ℕ} (hb : b < σ.func.nextBlock)
    (hg : Grown σ.func (σ.func.newStm b k calls stms)) :
    loopBody (σ.func.newStm b k calls stms) σ.func.nextStm =
      (σ.func.chain b).find? σ.looping := by
  have hparent : ((σ.func.newStm b k calls stms).stm σ.func.nextStm).parent = b := by
    simp [Func.newStm]
  unfold loopBody
  rw [hparent, hg.chain hb]
  refine List.find?_congr fun c hc => ?_
  have hle := Func.lt_of_mem_chain h.wf.parent_lt hc
  rw [hg.ext.role c (by omega)]
  rfl

theorem grown_append {k : Kind M} {calls : List ℕ} (hb : σ.func.currentBlock = some b)
    (hk : σ.func.Fits b k) :
    Grown σ.func (σ.func.newStm b k calls (σ.stms b ++ [σ.func.nextStm])) := by
  have hlt := h.stack_lt (Func.current_mem hb)
  have hblocks : ∀ d ∈ k.blocks, d ∈ σ.func.made ∧ b ∈ σ.func.stack := by
    refine fun d hd => ⟨?_, Func.current_mem hb⟩
    cases k with
    | ifElse test t e =>
      rcases List.mem_cons.mp hd with rfl | hd
      · exact hk.1.1
      · rw [List.mem_singleton.mp hd]
        exact hk.2.1
    | forLoop init test incr l =>
      rw [List.mem_singleton.mp hd]
      exact hk.1
    | emi i j t e =>
      rcases List.mem_cons.mp hd with rfl | hd
      · exact hk.1.1
      · rw [List.mem_singleton.mp hd]
        exact hk.2.1
    | simple run => cases hd
    | ret => cases hd
    | brk test => cases hd
    | cont test => cases hd
    | goto test dest => cases hd
  have hnodup : (σ.stms b ++ [σ.func.nextStm]).Nodup := by
    refine List.nodup_append.mpr ⟨h.tracked.forest.nodup b, List.pairwise_singleton _ _, ?_⟩
    rintro s hs t ht rfl
    rw [List.mem_singleton.mp ht] at hs
    exact h.not_mem_stms hs
  refine h.grown_newStm hlt (Func.Fits.kept h.wf hk) hblocks
    (fun s hs => List.mem_append_left _ hs) ?_ (by simp) hnodup
  intro s hs
  exact (List.mem_append.mp hs).symm.imp_left List.mem_singleton.mp

theorem append {k : Kind M} {calls : List ℕ} (hb : σ.func.currentBlock = some b)
    (hk : σ.func.Fits b k) : Building (σ.append b k calls) := by
  have hlt := h.stack_lt (Func.current_mem hb)
  have hg : Grown σ.func (σ.func.newStm b k calls (σ.stms b ++ [σ.func.nextStm])) :=
    h.grown_append hb hk
  refine h.newStm rfl hg ?_
  -- the function afterwards is a variable from here on; what is needed of it is stated
  generalize hf : σ.func.newStm b k calls (σ.stms b ++ [σ.func.nextStm]) = f' at hg
  have hfunc : (σ.append b k calls).func = f' := hf
  have hkind : (f'.stm σ.func.nextStm).kind = k := by
    rw [← hf]
    simp [Func.newStm]
  have hparent : (f'.stm σ.func.nextStm).parent = b := by
    rw [← hf]
    simp [Func.newStm]
  have hloop : loopBody f' σ.func.nextStm = (σ.func.chain b).find? σ.looping := by
    rw [← hf] at hg ⊢
    exact h.loopBody_newStm hlt hg
  have hW : Within f' (Roots f') b := hg.within (.root (.inl (Func.current_mem hb)))
  have hpresent : Present f' (Roots f') (.stm σ.func.nextStm) := by
    simp only [Present]
    rw [hparent]
    refine ⟨?_, hW⟩
    rw [← hf]
    simp [Func.newStm, Func.setStms]
  have hnew : ∀ s, σ.func.nextStm ≤ s → Present f' (Roots f') (.stm s) → s = σ.func.nextStm := by
    intro s hs hp
    have hlt' := (hg.wf'.mem_stms _ s hp.1).1
    have hnext : f'.nextStm = σ.func.nextStm + 1 := by
      rw [← hf]
      rfl
    omega
  have hchain : ∀ l, (σ.func.chain b).find? σ.looping = some l → Within f' (Roots f') l := by
    intro l hl
    exact hg.within (h.tracked.forest.within_chain (.root (.inl (Func.current_mem hb)))
      (List.mem_of_find?_eq_some hl))
  have hcurrent : (σ.func.currentBlock.bind fun b => (σ.func.chain b).find? σ.looping) =
      (σ.func.chain b).find? σ.looping := by
    rw [hb]
    rfl
  rw [← hfunc] at hg hloop hkind hpresent hnew hchain
  -- one goal each for the edges, the continues, the gotos and the break lists
  refine h.tracked.grow hg h.unmade (List.subset_append_left _ _) ?_ ?_ ?_ ?_ fun b hb => .inl hb
  · intro e he
    refine (List.mem_append.mp he).imp_right fun he => ?_
    cases k with
    | cont test =>
      simp only [FlowGraph.edgesOf, hcurrent] at he
      cases hl : (σ.func.chain b).find? σ.looping with
      | none =>
        rw [hl] at he
        cases he
      | some l =>
        rw [hl] at he
        rw [List.mem_singleton.mp he]
        refine ⟨hpresent, hchain l hl, ?_⟩
        simp only [EdgeOk, hkind]
        exact ⟨l, hloop.trans hl, rfl⟩
    | forLoop init test incr body =>
      -- the breaks out of the body get their edges with the loop
      obtain ⟨x, hx, rfl⟩ := List.mem_map.mp he
      obtain ⟨⟨test', hk'⟩, hl, hp⟩ := h.tracked.break_stms body x hx
      have hbody := hp (.root (.inr hk.1))
      have hxlt : x < σ.func.nextStm := (h.wf.mem_stms _ x hbody.1).1
      refine ⟨hg.present hbody, hpresent, ?_⟩
      simp only [EdgeOk, hg.ext.stm x hxlt, hk', hg.loopBody hxlt]
      exact ⟨body, σ.func.nextStm, hl, by rw [hkind]; simp [Kind.blocks], rfl⟩
    | simple run => cases he
    | ret => cases he
    | brk test => cases he
    | goto test dest => cases he
    | ifElse test t e => cases he
    | emi i j t e => cases he
  · intro s hs hp test l hk' hl
    obtain rfl := hnew s hs hp
    rw [hkind] at hk'
    subst hk'
    refine List.mem_append_right _ ?_
    rw [hloop] at hl
    simp only [FlowGraph.edgesOf, hcurrent, hl]
    exact List.mem_cons_self
  · intro s hs hp test dest hk'
    obtain rfl := hnew s hs hp
    rw [hkind] at hk'
    subst hk'
    exact absurd hk id
  · intro c s hs
    cases k with
    | brk test =>
      simp only [FlowGraph.append, FlowGraph.breaksWith, hcurrent] at hs
      cases hl : (σ.func.chain b).find? σ.looping with
      | none =>
        rw [hl] at hs
        exact .inl hs
      | some l =>
        rw [hl] at hs
        dsimp only at hs
        by_cases hc : c = l
        · subst hc
          rw [Function.update_self] at hs
          refine (List.mem_append.mp hs).imp_right fun hs => ?_
          rw [List.mem_singleton.mp hs]
          exact ⟨⟨test, hkind⟩, hloop.trans hl, hpresent⟩
        · rw [Function.update_of_ne hc] at hs
          exact .inl hs
    | simple run => exact .inl hs
    | ret => exact .inl hs
    | cont test => exact .inl hs
    | goto test dest => exact .inl hs
    | ifElse test t e => exact .inl hs
    | forLoop init test incr body => exact .inl hs
    | emi i j t e => exact .inl hs

/-- A new goto, and its edge. -/
theorem newGoto {test : M → Bool} {dest : ℕ} {stms : List ℕ} (back : Bool)
    (hW : Within σ.func (Roots σ.func) b) (hdest : Present σ.func (Roots σ.func) (.stm dest))
    (hsub : ∀ s ∈ (σ.func.block b).stms, s ∈ stms)
    (hstms : ∀ s ∈ stms, s = σ.func.nextStm ∨ s ∈ (σ.func.block b).stms)
    (hnew : σ.func.nextStm ∈ stms) (hnodup : stms.Nodup) :
    Building { σ with
      func := σ.func.newStm b (.goto test dest) [] stms
      cfgEdges := σ.cfgEdges ++ [⟨.stm σ.func.nextStm, .stm dest, false, back⟩] } := by
  have hlt := h.wf.within_lt hW
  have hkept : σ.func.Kept b (.goto test dest) := (h.wf.mem_stms _ dest hdest.1).1
  have hg : Grown σ.func (σ.func.newStm b (.goto test dest) [] stms) :=
    h.grown_newStm hlt hkept (fun d hd => absurd hd List.not_mem_nil) hsub hstms hnew hnodup
  refine h.newStm rfl hg ?_
  generalize hf : σ.func.newStm b (.goto test dest) [] stms = f' at hg
  have hkind : (f'.stm σ.func.nextStm).kind = .goto test dest := by
    rw [← hf]
    simp [Func.newStm]
  have hpresent : Present f' (Roots f') (.stm σ.func.nextStm) := by
    have hparent : (f'.stm σ.func.nextStm).parent = b := by
      rw [← hf]
      simp [Func.newStm]
    simp only [Present]
    rw [hparent]
    refine ⟨?_, hg.within hW⟩
    rw [← hf]
    simpa [Func.newStm, Func.setStms] using hnew
  -- of the statements from here on, the goto is the only one that is there
  have hone : ∀ s, σ.func.nextStm ≤ s → Present f' (Roots f') (.stm s) → s = σ.func.nextStm := by
    intro s hs hp
    have hlt' := (hg.wf'.mem_stms _ s hp.1).1
    have hnext : f'.nextStm = σ.func.nextStm + 1 := by
      rw [← hf]
      rfl
    omega
  refine h.tracked.grow hg h.unmade (List.subset_append_left _ _) ?_ ?_ ?_
    (fun _ _ hs => .inl hs) ?_
  · intro e he
    refine (List.mem_append.mp he).imp_right fun he => ?_
    rw [List.mem_singleton.mp he]
    refine ⟨hpresent, hg.present hdest, ?_⟩
    simp only [EdgeOk, hkind]
  · intro s hs hp test' l hk hl
    obtain rfl := hone s hs hp
    rw [hkind] at hk
    cases hk
  · intro s hs hp test' dest' hk
    obtain rfl := hone s hs hp
    rw [hkind] at hk
    cases hk
    exact ⟨back, List.mem_append_right _ (List.mem_singleton.mpr rfl)⟩
  · rw [← hf]
    exact fun b hb => .inl hb

/-- **What a jump becomes**: nothing, or a goto with its edge. -/
theorem makeGoto_cases {draws : Tape} {j : Func.Jump} {test : M → Bool} {ok : Bool}
    (hb : σ.func.currentBlock = some b) (hj : σ.func.jump b draws = some j)
    (hm : σ.makeGoto b j test ok = some σ') : σ' = σ ∨ ∃ dest stms back,
      σ' = { σ with
        func := σ.func.newStm (j.src σ.func b) (.goto test dest) [] stms
        cfgEdges := σ.cfgEdges ++ [⟨.stm σ.func.nextStm, .stm dest, false, back⟩] } ∧
      Within σ.func (Roots σ.func) (j.src σ.func b) ∧
      Present σ.func (Roots σ.func) (.stm dest) ∧
      (σ.func.stm dest).parent = j.dst σ.func b ∧
      (∀ s ∈ (σ.func.block (j.src σ.func b)).stms, s ∈ stms) ∧
      (∀ s ∈ stms, s = σ.func.nextStm ∨ s ∈ (σ.func.block (j.src σ.func b)).stms) ∧
      σ.func.nextStm ∈ stms ∧ stms.Nodup := by
  obtain ⟨hmem, -⟩ := Func.jump_spec hj
  have hother := Func.mem_of_jump hj
  have hpar := (h.wf.mem_stms _ _ hother).2
  have hblock := h.tracked.blocks _ hmem
  have hWb : Within σ.func (Roots σ.func) b := .root (.inl (Func.current_mem hb))
  obtain ⟨f', hf, rfl⟩ := Option.map_eq_some_iff.mp hm
  unfold Func.makeGoto at hf
  unfold Func.Jump.src Func.Jump.dst FlowGraph.gotoEdges
  split at hf
  -- a backward goto is appended to the current block, which is on the stack
  · next hback =>
    cases hf
    simp only [hback, if_true]
    refine .inr ⟨j.otherStm, _, true, rfl, hWb, ?_, rfl, fun s hs => List.mem_append_left _ hs,
      fun s hs => (List.mem_append.mp hs).symm.imp_left List.mem_singleton.mp, by simp, ?_⟩
    · simp only [Present]
      rw [hpar]
      exact ⟨hother, hblock⟩
    · refine List.nodup_append.mpr ⟨h.tracked.forest.nodup b, List.pairwise_singleton _ _, ?_⟩
      rintro s hs t ht rfl
      rw [List.mem_singleton.mp ht] at hs
      exact h.not_mem_stms hs
  · next hforward =>
    simp only [hforward, Bool.false_eq_true, if_false, FlowGraph.stms]
    split at hf
    · cases hf
    · next stm hlast =>
      rw [hlast]
      split at hf
      · next hok =>
        cases hf
        have hstm := List.mem_of_getLast? hlast
        have hspar := (h.wf.mem_stms b stm hstm).2
        rw [hpar]
        refine .inr ⟨stm, _, false, ?_, hblock, ?_, hspar,
          fun s hs => Func.mem_insertAfter_of_mem hs, fun s hs => Func.mem_of_mem_insertAfter hs,
          Func.mem_insertAfter_new hother, ?_⟩
        · simp only [hok, if_true]
        · simp only [Present]
          rw [hspar]
          exact ⟨hstm, hWb⟩
        · exact Func.nodup_insertAfter (h.tracked.forest.nodup _) h.not_mem_stms
      · next hok =>
        cases hf
        refine .inl ?_
        simp only [hok, Bool.false_eq_true, if_false, List.append_nil]

theorem makeGoto {draws : Tape} {j : Func.Jump} {test : M → Bool} {ok : Bool}
    (hb : σ.func.currentBlock = some b) (hj : σ.func.jump b draws = some j)
    (hm : σ.makeGoto b j test ok = some σ') : Building σ' := by
  rcases h.makeGoto_cases hb hj hm with rfl | ⟨dest, stms, back, rfl, hW, hdest, -, hspec⟩
  · exact h
  · exact h.newGoto back hW hdest hspec.1 hspec.2.1 hspec.2.2.1 hspec.2.2.2

/-! ### Removals -/

theorem removeStmt (hb : b ∈ σ.func.stack) (hs : s ∈ σ.stms b)
    (hrun : σ.removeStmt b s = some σ') : Building σ' ∧ Shrunk σ.func σ'.func := by
  obtain ⟨σ₁, hrun₁, htracked, hrem, -⟩ := removeStmt_spec h.tracked (.root (.inl hb)) hs
  rw [hrun] at hrun₁
  obtain rfl := Option.some.inj hrun₁
  have hsh := hrem.shrunk
  have hroots : Roots σ'.func = Roots σ.func := by
    unfold Roots
    rw [hsh.stack, hsh.made]
  refine ⟨⟨hsh.wf h.wf, by rwa [hroots], ?_, ?_, ?_, ?_, ?_, ?_⟩, hsh⟩
  · rw [hsh.nextStm, hsh.stm]
    exact h.unmade
  · rw [hsh.stack]
    exact h.sorted
  · rw [hsh.stack]
    intro c hc p hp
    rw [hsh.parent] at hp
    exact h.stack_parent c hc p hp
  · rw [hsh.stack, hsh.made]
    intro c hc p hp
    rw [hsh.parent] at hp
    exact h.made_parent c hc p hp
  · rw [hsh.stack, hsh.made]
    exact h.apart
  · rw [hsh.nextBlock]
    intro c hc hp
    rw [hsh.parent] at hp
    exact h.orphan c hc hp

theorem selfEdge (hb : b ∈ σ.func.stack) : Building (σ.selfEdge b) :=
  ⟨h.wf, h.tracked.selfEdge (.inl hb), h.unmade, h.sorted, h.stack_parent, h.made_parent, h.apart,
    h.orphan⟩

/-! ### Runs -/

/-- **Every event keeps a function well formed and tracked.** -/
theorem moves (hm : σ.Moves σ') : Building σ' := by
  cases hm with
  | openBlock ho => exact h.openBlock ho
  | closeBlock hc => exact h.closeBlock hc
  | newLocal _ _ _ => exact h.newLocal _ _
  | append calls hb hfits => exact h.append hb hfits
  | goto hb hj hm => exact h.makeGoto hb hj hm
  | idle => exact h
  | selfEdge hb => exact h.selfEdge hb
  | removeStmt hb hs hrun => exact (h.removeStmt hb hs hrun).1

end Building

theorem building_of_reachable {cg : CGOptions} (h : (FlowGraph.system M cg).Reachable σ) :
    Building σ := by
  refine Common.invariant_of_events (I := Building) building_empty ?_ h
  intro σ e σ' hb hstep
  exact hb.moves (FlowGraph.moves_of_step hstep)

/-- **Edges, `break_stms` and `func->blocks` are about what is there** in every state
of the generation of a function, and every goto and continue has its edge. From there
any removal in an open block ends: it takes away the statement, and besides it only
gotos that lead into it, and leaves no trace of them. -/
theorem generation_tracked {cg : CGOptions} (h : (FlowGraph.system M cg).Reachable σ) :
    Tracked σ (Roots σ.func) [] ∧
    ∀ b ∈ σ.func.stack, ∀ s ∈ σ.stms b, ∃ σ', σ.removeStmt b s = some σ' ∧
      Tracked σ' (Roots σ'.func) [] ∧ s ∉ σ'.stms b ∧
      ∀ c, ∀ t ∈ σ.stms c, t ∉ σ'.stms c → t = s ∨ Leads σ s t := by
  have hb := building_of_reachable h
  refine ⟨hb.tracked, fun b hmem s hs => ?_⟩
  obtain ⟨σ', hrun, -, hrem, hnot⟩ := removeStmt_spec hb.tracked (.root (.inl hmem)) hs
  exact ⟨σ', hrun, (hb.removeStmt hmem hs hrun).1.tracked, hnot, hrem.gone⟩

/-- `for (..) { if (g_1) break; if (g_1) continue; } if (g_1) goto lbl;` with the label
at the loop. -/
def loopEvents : List (FlowEvent Unit) :=
  [.openBlock .body false, .openBlock .loop true, .append (.brk fun _ => true) [],
    .append (.cont fun _ => true) [], .selfEdge, .closeBlock,
    .append (.forLoop id (fun _ => true) id 1) [], .append (.simple id) [],
    .goto [0, 0, 0] (some fun _ => true) true]

theorem generation_tracked_loop :
    ∃ σ, FlowGraph.run { func := {} } {} loopEvents = some σ ∧ σ.cfgEdges.length = 4 ∧
      Tracked σ (Roots σ.func) [] ∧
      ∀ b ∈ σ.func.stack, ∀ s ∈ σ.stms b, ∃ σ', σ.removeStmt b s = some σ' ∧
        Tracked σ' (Roots σ'.func) [] ∧ s ∉ σ'.stms b ∧
        ∀ c, ∀ t ∈ σ.stms c, t ∉ σ'.stms c → t = s ∨ Leads σ s t := by
  refine ⟨_, rfl, rfl, @generation_tracked _ _ {} ?_⟩
  exact Common.reachable_runEvents (.init rfl)
    (rfl : FlowGraph.run { func := {} } {} loopEvents = some _)

end Generate

end CLSmith
