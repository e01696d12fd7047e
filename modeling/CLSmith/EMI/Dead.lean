import CLSmith.EMI.Execution
import CLSmith.EMI.Prune
import CLSmith.Goto.Jumps
/-!
# EMI sections are dead code

No test of a section holds. Control then comes into a section by a jump
only. Where every goto is made in a block the sections are guarded against,
no run executes a statement of a true block, pruned or not; and a goto made
anywhere else can be drawn so that it leads into one.
-/

namespace CLSmith

namespace EMI

open Generate Generate.Func

variable {M : Type} {cg : CGOptions} {g g' : State M} {i : ℕ} {e : Event M}
variable {f : Func M} {b c : ℕ}

/-! ## Generation -/

/-- **Every function is well formed and every section's test is false.** The values of
the input buffer fall, and a section compares an item with the one after it. -/
structure Sound (g : State M) : Prop where
  wf : ∀ i, (g.func i).Wf
  even : g.itemCount % 2 = 0
  test_false : ∀ i b i₁ i₂, ((g.func i).block b).role = .emi i₁ i₂ →
    emiTest i₁ i₂ = some false

/-- One function goes on, to one with no new section. -/
theorem Sound.setFunc {f' : Func M} (h : Sound g) (hf : f'.Wf)
    (hrole : ∀ b, (f'.block b).role = ((g.func i).block b).role ∨ (f'.block b).role.isEmi = false) :
    Sound (g.setFunc i f') := by
  refine ⟨fun j => ?_, h.even, fun j b i₁ i₂ hb => ?_⟩
  · show (Function.update g.func i f' j).Wf
    by_cases hj : j = i
    · subst hj
      rwa [Function.update_self]
    · rw [Function.update_of_ne hj]
      exact h.wf j
  · have hb' : ((Function.update g.func i f' j).block b).role = .emi i₁ i₂ := hb
    by_cases hj : j = i
    · subst hj
      rw [Function.update_self] at hb'
      rcases hrole b with hr | hr
      · exact h.test_false j b i₁ i₂ (hr.symm.trans hb')
      · rw [hb'] at hr
        cases hr
    · rw [Function.update_of_ne hj] at hb'
      exact h.test_false j b i₁ i₂ hb'

theorem Sound.step (h : Sound g) (hstep : g.step cg i e = some g') : Sound g' := by
  have hf := h.wf i
  cases e with
  | openBlock role inArrayLoop =>
    simp only [State.step] at hstep
    split at hstep
    · cases hstep
    · next hrole =>
      cases hstep
      refine h.setFunc (hf.openBlock inArrayLoop fun he => absurd he hrole) fun b => ?_
      show (Function.update (g.func i).block _ _ b).role = _ ∨ _
      by_cases hb : b = (g.func i).nextBlock
      · subst hb
        refine Or.inr ?_
        show (Function.update (g.func i).block _ _ _).role.isEmi = _
        rw [Function.update_self]
        exact Bool.not_eq_true _ ▸ hrole
      · rw [Function.update_of_ne hb]
        exact Or.inl rfl
  -- the only event that makes the test of a section, from two items that follow each other
  | openEmi inArrayLoop =>
    simp only [State.step] at hstep
    split at hstep
    · next hopen =>
      cases hstep
      have heven := h.even
      have hlt : g.itemCount + 1 < 1024 := by omega
      have hcount : (g.itemCount + 2) % 2 = 0 := by omega
      refine ⟨fun j => ?_, hcount, fun j b i₁ i₂ hb => ?_⟩
      · show (Function.update g.func i _ j).Wf
        by_cases hj : j = i
        · subst hj
          rw [Function.update_self]
          exact hf.openBlock inArrayLoop fun _ => hopen.1
        · rw [Function.update_of_ne hj]
          exact h.wf j
      · have hb' : ((Function.update g.func i
            ((g.func i).openBlock (.emi g.itemCount (g.itemCount + 1)) inArrayLoop) j).block
              b).role =
              .emi i₁ i₂ := hb
        by_cases hj : j = i
        · subst hj
          rw [Function.update_self] at hb'
          -- a true block is the new one, or has the test it had
          by_cases hn : b = (g.func j).nextBlock
          · subst hn
            have hnew : ((g.func j).openBlock (.emi g.itemCount (g.itemCount + 1))
                inArrayLoop).block (g.func j).nextBlock =
                  ⟨(g.func j).currentBlock, .emi g.itemCount (g.itemCount + 1), inArrayLoop, [],
                    []⟩ :=
              Function.update_self ..
            rw [hnew] at hb'
            cases hb'
            exact emiTest_succ hlt
          · have hold : ((g.func j).openBlock (.emi g.itemCount (g.itemCount + 1))
                inArrayLoop).block b = (g.func j).block b := Function.update_of_ne hn _ _
            rw [hold] at hb'
            exact h.test_false j b i₁ i₂ hb'
        · rw [Function.update_of_ne hj] at hb'
          exact h.test_false j b i₁ i₂ hb'
    · cases hstep
  | closeBlock =>
    cases hstep
    exact h.setFunc hf.closeBlock fun b => Or.inl rfl
  | newLocal b v =>
    simp only [State.step] at hstep
    split at hstep
    · cases hstep
      exact h.setFunc (hf.newLocal b v) fun c => Or.inl (update_role rfl (by rfl) c)
    · cases hstep
  | append kind calls =>
    simp only [State.step] at hstep
    split at hstep
    · cases hstep
    · next b hb =>
      split at hstep
      · next hfits =>
        cases hstep
        refine h.setFunc (hf.newStm (currentBlock_lt hf hb) (hfits.kept hf) fun s hs => ?_)
          fun c => Or.inl (update_role rfl (by rfl) c)
        rcases List.mem_append.mp hs with hs | hs
        · exact Or.inr hs
        · exact Or.inl (List.mem_singleton.mp hs)
      · cases hstep
  | goto draws condVar ok =>
    simp only [State.step] at hstep
    split at hstep
    · split at hstep
      · cases hstep
      · next b hb =>
        split at hstep
        · next j test hj =>
          obtain ⟨f', hmake, rfl⟩ := Option.map_eq_some_iff.mp hstep
          have hmem := mem_of_jump hj
          refine h.setFunc (hf.makeGoto (currentBlock_lt hf hb) hmem hmake) fun c => Or.inl ?_
          obtain rfl | ⟨dest, stms, rfl, -⟩ := makeGoto_cases hf hmem hmake
          · rfl
          · exact update_role rfl (by rfl) c
        · cases hstep
          exact h
    · cases hstep
  | removeStmt s =>
    cases hstep
    exact h.setFunc (hf.removeStmt s) fun c => Or.inl (update_role rfl (by rfl) c)

theorem sound_init : Sound ({} : State M) :=
  ⟨fun _ => wf_empty, rfl, fun _ _ _ _ h => nomatch h⟩

/-- A goto stays apart while the function grows around it. -/
theorem Apart.extends {f f' : Func M} (h : Apart f) (hf : f.Wf) (hext : Extends f f')
    (hnew : ∀ s, f.nextStm ≤ s → s < f'.nextStm → ∀ test dest, (f'.stm s).kind = .goto test dest →
      ∀ e ∈ f'.chain (f'.stm dest).parent, (f'.block e).role.isEmi = true →
        e ∈ f'.chain (f'.stm s).parent) : Apart f' := by
  intro s hs test dest hk e he hemi
  by_cases hlt : s < f.nextStm
  · rw [hext.stm s hlt] at hk ⊢
    have hdest : dest < f.nextStm := by
      have hkept := hf.kept s hlt
      rw [hk] at hkept
      exact hkept
    rw [hext.stm dest hdest, hext.chain hf.parent_lt (hf.stm_lt dest hdest)] at he
    have hle := lt_of_mem_chain hf.parent_lt he
    have hbound := hf.stm_lt dest hdest
    rw [hext.role e (by omega)] at hemi
    rw [hext.chain hf.parent_lt (hf.stm_lt s hlt)]
    exact h s hlt test dest hk e he hemi
  · exact hnew s (by omega) hs test dest hk e he hemi

theorem Apart.setFunc {f' : Func M} {g : State M} (h : ∀ j, Apart (g.func j)) (hf : Apart f')
    (j : ℕ) : Apart ((g.setFunc i f').func j) := by
  show Apart (Function.update g.func i f' j)
  by_cases hj : j = i
  · subst hj
    rwa [Function.update_self]
  · rw [Function.update_of_ne hj]
    exact h j

/-- **The sections are guarded against a block exactly where no jump that can
be drawn there leads into one.** -/
theorem guarded_iff (hf : f.Wf) : f.Guarded b ↔
    ∀ draws j, f.jump b draws = some j → ¬ f.Crosses (j.src f b) (j.dst f b) := by
  have hne : ∀ {c}, f.Crosses b c ∨ f.Crosses c b → c ≠ b := by
    rintro c (⟨e, he, -, hout⟩ | ⟨e, he, -, hout⟩) rfl <;> exact hout he
  constructor
  · intro h draws j hj hcross
    have hpar := (hf.mem_stms _ _ (mem_of_jump hj)).2
    obtain ⟨hmem, hadmits, hok⟩ := jump_iff.mp ⟨draws, hj⟩
    obtain ⟨hback, hforward⟩ := h j.block hmem (List.ne_nil_of_mem hok)
    unfold Jump.src Jump.dst at hcross
    rw [hpar] at hcross
    cases hdir : j.backEdge with
    | true =>
      rw [hdir] at hadmits hcross
      simp only [if_true] at hcross
      obtain ⟨hgoes, hopen⟩ :=
        (admits_back_iff hf (hne (.inl hcross)) (List.ne_nil_of_mem hok)).mp hadmits
      exact hopen (hback hgoes hcross)
    | false =>
      rw [hdir] at hadmits hcross
      simp only [Bool.false_eq_true, if_false] at hcross
      obtain ⟨hfull, hopen⟩ :=
        (admits_forward_iff hf (hne (.inr hcross)) (List.ne_nil_of_mem hok)).mp hadmits
      exact hopen (hforward hfull hcross)
  · intro h c hmem hok
    obtain ⟨s, hs⟩ := List.exists_mem_of_ne_nil _ hok
    have hpar := (hf.mem_stms _ _ (okStms_subset hs)).2
    -- either way a jump between the two blocks goes through the checks
    have hdrawn : ∀ back, f.Admits b c back →
        ¬ f.Crosses ((⟨back, c, s⟩ : Jump).src f b) ((⟨back, c, s⟩ : Jump).dst f b) := by
      intro back hadmits
      have hjump : ∃ draws, f.jump b draws = some ⟨back, c, s⟩ :=
        jump_iff.mpr ⟨hmem, hadmits, hs⟩
      obtain ⟨draws, hj⟩ := hjump
      exact h draws _ hj
    constructor
    · intro hgoes hcross
      by_contra hopen
      refine hdrawn true ((admits_back_iff hf (hne (.inl hcross)) hok).mpr ⟨hgoes, hopen⟩) ?_
      simpa [Jump.src, Jump.dst, hpar] using hcross
    · intro hfull hcross
      by_contra hopen
      refine hdrawn false ((admits_forward_iff hf (hne (.inr hcross)) hok).mpr ⟨hfull, hopen⟩) ?_
      simpa [Jump.src, Jump.dst, hpar] using hcross

theorem apart_step (hs : Sound g) (h : ∀ j, Apart (g.func j))
    (hstep : g.step cg i e = some g') (he : g.Guards i e) (j : ℕ) : Apart (g'.func j) := by
  have hf := hs.wf i
  have hgrow : ∀ {f' : Func M}, Extends (g.func i) f' → f'.nextStm = (g.func i).nextStm →
      Apart f' := by
    intro f' hext heq
    refine (h i).extends hf hext fun s hge hlt => ?_
    omega
  -- every event but a goto adds no goto, so that `hgrow` is all it needs
  cases e with
  | openBlock role inArrayLoop =>
    simp only [State.step] at hstep
    split at hstep
    · cases hstep
    · cases hstep
      exact Apart.setFunc h (hgrow (openBlock_extends role inArrayLoop) rfl) j
  | openEmi inArrayLoop =>
    simp only [State.step] at hstep
    split at hstep
    · cases hstep
      exact Apart.setFunc h (hgrow (openBlock_extends _ inArrayLoop) rfl) j
    · cases hstep
  | closeBlock =>
    cases hstep
    exact Apart.setFunc h (hgrow closeBlock_extends rfl) j
  | newLocal b v =>
    simp only [State.step] at hstep
    split at hstep
    · cases hstep
      exact Apart.setFunc h (hgrow (newLocal_extends b v) rfl) j
    · cases hstep
  | append kind calls =>
    simp only [State.step] at hstep
    split at hstep
    · cases hstep
    · next b hb =>
      split at hstep
      · next hfits =>
        cases hstep
        refine Apart.setFunc h ((h i).extends hf (newStm_extends b kind calls _) ?_) j
        intro s hge hlt test dest hk
        have hlt' : s < (g.func i).nextStm + 1 := hlt
        obtain rfl : s = (g.func i).nextStm := by omega
        have hkind : kind = .goto test dest := by
          have hnew : (Function.update (g.func i).stm (g.func i).nextStm ⟨b, kind, calls⟩
            (g.func i).nextStm).kind = .goto test dest := hk
          rwa [Function.update_self] at hnew
        subst hkind
        exact absurd hfits id
      · cases hstep
  | goto draws condVar ok =>
    simp only [State.step] at hstep
    split at hstep
    · split at hstep
      · cases hstep
      · next b hb =>
        split at hstep
        · next jmp test hj =>
          obtain ⟨f', hmake, rfl⟩ := Option.map_eq_some_iff.mp hstep
          have hmem := mem_of_jump hj
          -- the guard is needed here and nowhere else
          have hout := (guarded_iff hf).mp (he b hb) draws jmp hj
          refine Apart.setFunc h ?_ j
          obtain rfl | ⟨dest, stms, rfl, hlt, hpar, -⟩ := makeGoto_cases hf hmem hmake
          · exact h i
          · have hsrc : jmp.src (g.func i) b < (g.func i).nextBlock := by
              unfold Jump.src
              split
              · exact currentBlock_lt hf hb
              · exact hf.stm_lt _ (hf.mem_stms _ _ hmem).1
            have hext := newStm_extends (f := g.func i) (jmp.src (g.func i) b)
              (.goto test dest) [] stms
            refine (h i).extends hf hext ?_
            intro s hge hlt' test' dest' hk a ha hemi
            have hlt'' : s < (g.func i).nextStm + 1 := hlt'
            obtain rfl : s = (g.func i).nextStm := by omega
            have hnew : ((g.func i).newStm (jmp.src (g.func i) b) (.goto test dest) []
                stms).stm (g.func i).nextStm = ⟨jmp.src (g.func i) b, .goto test dest, []⟩ :=
              Function.update_self ..
            rw [hnew] at hk ⊢
            cases hk
            rw [hext.stm dest hlt, hpar, hext.chain hf.parent_lt (hpar ▸ hf.stm_lt dest hlt)] at ha
            rw [hext.chain hf.parent_lt hsrc]
            have hle := lt_of_mem_chain hf.parent_lt ha
            have hdst : jmp.dst (g.func i) b < (g.func i).nextBlock := hpar ▸ hf.stm_lt dest hlt
            rw [hext.role a (by omega)] at hemi
            -- a section around the target only would be one the jump crosses
            by_contra hnot
            exact hout ⟨a, ha, hemi, hnot⟩
        · cases hstep
          exact h j
    · cases hstep
  | removeStmt s =>
    cases hstep
    exact Apart.setFunc h (hgrow (removeStmt_extends s) rfl) j

theorem apart_of_reachable (h : (State.guardedSystem M cg).Reachable g) :
    Sound g ∧ ∀ i, Apart (g.func i) := by
  refine Common.invariant_of_events (I := fun g => Sound g ∧ ∀ i, Apart (g.func i)) ?_ ?_ h
  · exact ⟨sound_init, fun i s hs => absurd hs (Nat.not_lt_zero s)⟩
  · rintro g e g' ⟨hs, ha⟩ hstep
    obtain ⟨he, hstep⟩ := Option.ite_none_right_eq_some.mp hstep
    exact ⟨hs.step hstep, apart_step hs ha hstep he⟩

/-! ## Execution -/

section Execution

variable {f : Func M} {b c s : ℕ}

/-- **Control is outside the EMI sections**: before a statement of a block with no
section around it, or at the end of such a block. -/
def Outside (f : Func M) : Loc → Prop
  | .before s => s < f.nextStm ∧ Clear f (f.stm s).parent
  | .endOf b => Clear f b

theorem Clear.parent (h : Clear f b) (hf : f.Wf) (hp : (f.block b).parent = some c) :
    Clear f c := by
  intro e he
  refine h e ?_
  rw [chain_of_parent hf.parent_lt hp]
  exact List.mem_cons_of_mem _ he

/-- A block of a statement outside the sections, other than a true block. -/
theorem Clear.madeFor {role : Role} (h : Clear f b) (hf : f.Wf) (hm : f.MadeFor b c role)
    (hrole : role.isEmi = false) : Clear f c := by
  intro e he
  rw [chain_of_parent hf.parent_lt hm.2.1] at he
  rcases List.mem_cons.mp he with rfl | he
  · rw [hm.2.2]
    exact hrole
  · exact h e he

theorem outside_enter (hf : f.Wf) (h : Clear f b) : Outside f (enter f b) := by
  unfold enter
  split
  · next s rest hs =>
    obtain ⟨hlt, hpar⟩ := hf.mem_stms b s (hs ▸ List.mem_cons_self)
    exact ⟨hlt, hpar ▸ h⟩
  · exact h

theorem outside_after (hf : f.Wf) (h : Clear f (f.stm s).parent) : Outside f (after f s) := by
  unfold after
  split
  · next t rest ht =>
    have hmem : t ∈ ((f.block (f.stm s).parent).stms.dropWhile (· ≠ s)).tail :=
      ht ▸ List.mem_cons_self
    have hmem' := (List.dropWhile_subset _) (List.mem_of_mem_tail hmem)
    obtain ⟨hlt, hpar⟩ := hf.mem_stms _ t hmem'
    exact ⟨hlt, hpar ▸ h⟩
  · exact h

/-- The block of a statement is in the one the statement is in. -/
theorem Owns.parent (hf : f.Wf) (ho : Owns f s b) : (f.block b).parent = some (f.stm s).parent :=
  (hf.kept s (hf.mem_stms _ s ho.1).1).parent ho.2

theorem outside_afterOwner (hf : f.Wf) (ho : Owns f s b) (h : Clear f b) :
    Outside f (after f s) := outside_after hf (h.parent hf (ho.parent hf))

theorem clear_loopBody {l : ℕ} (hf : f.Wf) (h : Clear f (f.stm s).parent)
    (hl : loopBody f s = some l) : Clear f l :=
  fun e he => h e (chain_subset hf.parent_lt (List.mem_of_find?_eq_some hl) he)

/-- **A step inside a function keeps out of the EMI sections.** -/
theorem Outside.localStep {m m' : M} {l l' : Loc} (hf : f.Wf) (ha : Apart f)
    (ht : ∀ b i₁ i₂, (f.block b).role = .emi i₁ i₂ → emiTest i₁ i₂ = some false)
    (h : Outside f l) (hs : LocalStep f m l m' l') : Outside f l' := by
  cases hs with
  | simple hk => exact outside_after hf h.2
  | brkTaken hk _ hl ho => exact outside_afterOwner hf ho (clear_loopBody hf h.2 hl)
  | brkPassed hk _ => exact outside_after hf h.2
  | contTaken hk _ hl => exact clear_loopBody hf h.2 hl
  | contPassed hk _ => exact outside_after hf h.2
  | @gotoTaken s test dest hk _ =>
    have hdest : dest < f.nextStm := by
      have hkept := hf.kept s h.1
      rw [hk] at hkept
      exact hkept
    refine ⟨hdest, fun e he => ?_⟩
    by_contra hemi
    have hin := ha s h.1 test dest hk e he (by simpa using hemi)
    exact hemi (h.2 e hin)
  | gotoPassed hk _ => exact outside_after hf h.2
  | @ifElse s test t e hk =>
    have hkept := hf.kept s h.1
    rw [hk] at hkept
    refine outside_enter hf ?_
    split
    · exact h.2.madeFor hf hkept.1 rfl
    · exact h.2.madeFor hf hkept.2 rfl
  | @forLoop s init test incr b hk =>
    have hkept := hf.kept s h.1
    rw [hk] at hkept
    split
    · exact outside_enter hf (h.2.madeFor hf hkept rfl)
    · exact outside_after hf h.2
  | @emi s i j t e r hk hr =>
    have hkept := hf.kept s h.1
    rw [hk] at hkept
    -- the true block bears the items, so its test is the false one
    have hfalse : r = false := by
      rw [ht t i j hkept.1.2.2] at hr
      exact (Option.some.inj hr).symm
    subst hfalse
    exact outside_enter hf (h.2.madeFor hf hkept.2 rfl)
  | endBranch hk ho => exact outside_afterOwner hf ho h
  | endEmi hk ho => exact outside_afterOwner hf ho h
  | endLoop hk ho =>
    split
    · exact outside_enter hf h
    · exact outside_afterOwner hf ho h

/-! Outside the sections a pruned function runs as the one it was made of. -/

section Pruned

variable {f' : Func M} (hP : Pruned f f') (hf : f.Wf)
include hP

theorem enter_pruned (h : Clear f b) : enter f' b = enter f b := by
  unfold enter
  rw [hP.stms b h]

theorem after_pruned (hs : s < f.nextStm) (h : Clear f (f.stm s).parent) :
    after f' s = after f s := by
  unfold after
  rw [hP.stm s hs h, hP.stms _ h]

include hf

theorem loopBody_pruned (hs : s < f.nextStm) (h : Clear f (f.stm s).parent) :
    loopBody f' s = loopBody f s := by
  unfold loopBody
  rw [hP.stm s hs h, hP.chain hf]
  refine congrArg (List.find? · _) (funext fun b => ?_)
  rw [hP.role b]

/-- The statement a block outside the sections belongs to. -/
theorem owns_pruned (ho : Owns f' s b) (h : Clear f b) :
    s < f.nextStm ∧ Clear f (f.stm s).parent ∧ Owns f s b := by
  obtain ⟨hmem, hb⟩ := ho
  have hlt := (hP.mem_stms _ s hmem).1
  rw [hP.kind s] at hb
  have hclear : Clear f (f.stm s).parent := h.parent hf (hf.kept s hlt |>.parent hb)
  rw [hP.stm s hlt hclear, hP.stms _ hclear] at hmem
  exact ⟨hlt, hclear, hmem, hb⟩

theorem LocalStep.of_pruned {m m' : M} {l l' : Loc} (hs : LocalStep f' m l m' l')
    (ht : ∀ b i₁ i₂, (f.block b).role = .emi i₁ i₂ → emiTest i₁ i₂ = some false)
    (h : Outside f l) : LocalStep f m l m' l' := by
  cases hs with
  | simple hk =>
    rw [after_pruned hP h.1 h.2]
    exact .simple (hP.kind _ ▸ hk)
  -- behind a statement that stays, the pruned function goes on as the other does
  | brkTaken hk hm hl ho =>
    rw [loopBody_pruned hP hf h.1 h.2] at hl
    obtain ⟨hlt, hclear, ho⟩ := owns_pruned hP hf ho (clear_loopBody hf h.2 hl)
    rw [after_pruned hP hlt hclear]
    exact .brkTaken (hP.kind _ ▸ hk) hm hl ho
  | brkPassed hk hm =>
    rw [after_pruned hP h.1 h.2]
    exact .brkPassed (hP.kind _ ▸ hk) hm
  | contTaken hk hm hl =>
    rw [loopBody_pruned hP hf h.1 h.2] at hl
    exact .contTaken (hP.kind _ ▸ hk) hm hl
  | contPassed hk hm =>
    rw [after_pruned hP h.1 h.2]
    exact .contPassed (hP.kind _ ▸ hk) hm
  | gotoTaken hk hm => exact .gotoTaken (hP.kind _ ▸ hk) hm
  | gotoPassed hk hm =>
    rw [after_pruned hP h.1 h.2]
    exact .gotoPassed (hP.kind _ ▸ hk) hm
  | @ifElse s test t e hk =>
    have hk' : (f.stm s).kind = .ifElse test t e := hP.kind s ▸ hk
    have hkept := hf.kept s h.1
    rw [hk'] at hkept
    have hbranch : Clear f (if test m then t else e) := by
      split
      · exact h.2.madeFor hf hkept.1 rfl
      · exact h.2.madeFor hf hkept.2 rfl
    rw [enter_pruned hP hbranch]
    exact .ifElse hk'
  | @forLoop s init test incr b hk =>
    have hk' : (f.stm s).kind = .forLoop init test incr b := hP.kind s ▸ hk
    have hkept := hf.kept s h.1
    rw [hk'] at hkept
    rw [enter_pruned hP (h.2.madeFor hf hkept rfl), after_pruned hP h.1 h.2]
    exact .forLoop hk'
  | @emi s i j t e r hk hr =>
    have hk' : (f.stm s).kind = .emi i j t e := hP.kind s ▸ hk
    have hkept := hf.kept s h.1
    rw [hk'] at hkept
    -- the test is false, so that the true block, which is not clear, is not entered
    obtain rfl : false = r := Option.some.inj ((ht t i j hkept.1.2.2).symm.trans hr)
    have hbranch : Clear f (if false then t else e) := h.2.madeFor hf hkept.2 rfl
    rw [enter_pruned hP hbranch]
    exact .emi hk' hr
  | endBranch hk ho =>
    obtain ⟨hlt, hclear, ho⟩ := owns_pruned hP hf ho h
    rw [after_pruned hP hlt hclear]
    exact .endBranch (hP.kind _ ▸ hk) ho
  | endEmi hk ho =>
    obtain ⟨hlt, hclear, ho⟩ := owns_pruned hP hf ho h
    rw [after_pruned hP hlt hclear]
    exact .endEmi (hP.kind _ ▸ hk) ho
  | endLoop hk ho =>
    obtain ⟨hlt, hclear, ho⟩ := owns_pruned hP hf ho h
    rw [after_pruned hP hlt hclear, enter_pruned hP h]
    exact .endLoop (hP.kind _ ▸ hk) ho

end Pruned

/-- **Every thread of a kernel stays outside the EMI sections.** -/
theorem outside_of_reachable {P P' : ℕ → Func M} {main : ℕ} {c : Config M} (hf : ∀ i, (P i).Wf)
    (ha : ∀ i, Apart (P i))
    (ht : ∀ i b i₁ i₂, ((P i).block b).role = .emi i₁ i₂ → emiTest i₁ i₂ = some false)
    (hP : ∀ i, Pruned (P i) (P' i)) (h : (kernel P' main).Reachable c) :
    ∀ t, ∀ fr ∈ c.threads t, Outside (P fr.1) fr.2 := by
  have hbody : ∀ i, Outside (P i) (enter (P' i) 0) := by
    intro i
    have hclear : Clear (P i) 0 := by
      intro e he
      rw [chain_of_none (hf i).body.1] at he
      obtain rfl := List.mem_singleton.mp he
      exact (hf i).body.2
    rw [enter_pruned (hP i) hclear]
    exact outside_enter (hf i) hclear
  refine h.invariant (I := fun c => ∀ t, ∀ fr ∈ c.threads t, Outside (P fr.1) fr.2) ?_ ?_
  · intro c hc t fr hfr
    rw [show c.threads t = _ from hc t] at hfr
    obtain rfl := List.mem_singleton.mp hfr
    exact hbody main
  · intro c c' _ ih hstep
    -- only the stack of the thread that takes the step is another
    have hset : ∀ (t : ℕ) (stack : List (ℕ × Loc)), (∀ fr ∈ stack, Outside (P fr.1) fr.2) →
        ∀ t', ∀ fr ∈ Function.update c.threads t stack t', Outside (P fr.1) fr.2 := by
      intro t stack hstack t' fr hfr
      by_cases hteq : t' = t
      · subst hteq
        rw [Function.update_self] at hfr
        exact hstack fr hfr
      · rw [Function.update_of_ne hteq] at hfr
        exact ih t' fr hfr
    cases hstep with
    | @run t i l rest m' l' hthread hs =>
      refine hset t _ fun fr hfr => ?_
      have hold := ih t
      rw [hthread] at hold
      rcases List.mem_cons.mp hfr with rfl | hfr
      · have hl := hold _ List.mem_cons_self
        exact hl.localStep (hf i) (ha i) (ht i) (hs.of_pruned (hP i) (hf i) (ht i) hl)
      · exact hold fr (List.mem_cons_of_mem _ hfr)
    | @call t i s rest j hthread hc =>
      refine hset t _ fun fr hfr => ?_
      have hold := ih t
      rw [hthread] at hold
      rcases List.mem_cons.mp hfr with rfl | hfr
      · exact hbody j
      · exact hold fr hfr
    | @ret t i s rest hthread hr =>
      refine hset t _ fun fr hfr => ?_
      have hold := ih t
      rw [hthread] at hold
      exact hold fr (List.mem_cons_of_mem _ hfr)
    | @fallOff t i b rest hthread hb =>
      refine hset t _ fun fr hfr => ?_
      have hold := ih t
      rw [hthread] at hold
      exact hold fr (List.mem_cons_of_mem _ hfr)

end Execution

/-- A pruned program whose gotos keep out of the sections is dead in them. -/
theorem dead_of_apart {P : ℕ → Func M} (hs : Sound g) (ha : ∀ i, Apart (g.func i))
    (hP : ∀ i, Prunes (g.func i) (P i)) : Dead P := by
  have hpruned : ∀ i, Pruned (g.func i) (P i) := fun i => (hP i).pruned (hs.wf i)
  refine ⟨?_, ?_, ?_⟩
  · intro i b i₁ i₂ hb
    rw [(hpruned i).role b] at hb
    exact hs.test_false i b i₁ i₂ hb
  · intro i b s test dest hmem hk e he hemi
    obtain ⟨hlt, rfl⟩ := (hpruned i).mem_stms b s hmem
    rw [(hpruned i).kind s] at hk
    have hdest : dest < (g.func i).nextStm := by
      have hkept := (hs.wf i).kept s hlt
      rw [hk] at hkept
      exact hkept
    rw [(hpruned i).chain (hs.wf i)] at he ⊢
    rw [(hpruned i).role e] at hemi
    have hin := ha i s hlt test dest hk e (((hpruned i).sections dest hdest e hemi).mp he) hemi
    exact ((hpruned i).sections s hlt e hemi).mpr hin
  · intro main c hc t i s hmem e he
    have hout := outside_of_reachable hs.wf ha hs.test_false hpruned hc t _ hmem
    rw [(hpruned i).stm s hout.1 hout.2, (hpruned i).chain (hs.wf i)] at he
    rw [(hpruned i).role e]
    exact hout.2 e he

/-- **`PruneEMISections` leaves the sections dead**, under all probabilities
and for all draws, in a program whose gotos keep out of them. -/
theorem dead_of_pruneEmiSections {E : ℕ → List (ℕ × ℕ)} {p : Probs} {n : ℕ}
    {sections : List (ℕ × ℕ)} {σ : ℕ → Pruning M} {tape tape' : Tape} (hs : Sound g)
    (ha : ∀ i, Apart (g.func i)) (hE : ∀ i, GotoEdges (g.func i) (E i))
    (hsections : ∀ e ∈ sections, ((g.func e.1).block e.2).role.isEmi = true)
    (hrun : Pruning.pruneEmiSections p n sections (fun i => ⟨g.func i, fun _ => [], E i⟩) tape =
      some (σ, tape')) : Dead fun i => (σ i).func := by
  refine dead_of_apart hs ha (pruneEmiSections_prunes hs.wf ha hE (fun e he hclear => ?_) hrun)
  have hnot := hclear e.2 mem_chain_self
  rw [hsections e he] at hnot
  cases hnot

/-- **A jump across the edge of a section is made** when a variable is found
for its condition, and then the section is not dead. -/
theorem not_dead_of_crosses {draws : Tape} {j : Jump} (hs : Sound g) (hcg : cg.gotos = true)
    (hb : (g.func i).currentBlock = some b) (hj : (g.func i).jump b draws = some j)
    (hcross : (g.func i).Crosses (j.src (g.func i) b) (j.dst (g.func i) b)) :
    ∃ g', g.step cg i (.goto draws (some fun _ => true) true) = some g' ∧ ¬ Dead g'.func := by
  have hf := hs.wf i
  have hmem := mem_of_jump hj
  obtain ⟨-, hadmits, -⟩ := jump_iff.mp ⟨draws, hj⟩
  obtain ⟨dest, stms, hmake, hnew, hlt, hpar⟩ : ∃ dest stms,
      (g.func i).makeGoto b j (fun _ => true) true = some
        ((g.func i).newStm (j.src (g.func i) b) (.goto (fun _ => true) dest) [] stms) ∧
      (g.func i).nextStm ∈ stms ∧ dest < (g.func i).nextStm ∧
      ((g.func i).stm dest).parent = j.dst (g.func i) b := by
    unfold makeGoto Jump.src Jump.dst
    cases hdir : j.backEdge with
    | true =>
      refine ⟨j.otherStm, _, rfl, List.mem_append_right _ List.mem_cons_self, ?_, rfl⟩
      exact (hf.mem_stms _ _ hmem).1
    | false =>
      rw [hdir] at hadmits
      cases hlast : ((g.func i).block b).stms.getLast? with
      | none => exact absurd (List.getLast?_eq_none_iff.mp hlast) (hadmits.nonempty rfl)
      | some stm =>
        obtain ⟨hlt, hpar⟩ := hf.mem_stms b stm (List.mem_of_getLast? hlast)
        refine ⟨stm, _, rfl, mem_insertAfter_new ?_, hlt, hpar⟩
        exact (hf.mem_stms _ _ hmem).2.symm ▸ hmem
  have hstep : g.step cg i (.goto draws (some fun _ => true) true) =
      some (g.setFunc i ((g.func i).newStm (j.src (g.func i) b)
        (.goto (fun _ => true) dest) [] stms)) := by
    simp only [State.step, hcg, if_true, hb, hj, hmake, Option.map_some]
  refine ⟨_, hstep, fun hdead => ?_⟩
  -- the new goto stands in the block it leaves from
  have hext := newStm_extends (f := g.func i) (j.src (g.func i) b)
    (.goto (fun _ => true) dest) [] stms
  have hself : (g.setFunc i ((g.func i).newStm (j.src (g.func i) b)
      (.goto (fun _ => true) dest) [] stms)).func i = (g.func i).newStm (j.src (g.func i) b)
        (.goto (fun _ => true) dest) [] stms := Function.update_self ..
  have hsrc : j.src (g.func i) b < (g.func i).nextBlock := by
    unfold Jump.src
    split
    · exact currentBlock_lt hf hb
    · exact hf.stm_lt _ (hf.mem_stms _ _ hmem).1
  have hdst : j.dst (g.func i) b < (g.func i).nextBlock := hpar ▸ hf.stm_lt dest hlt
  obtain ⟨e, he, hemi, hout⟩ := hcross
  have hle := lt_of_mem_chain hf.parent_lt he
  have hin := hdead.goto_apart i (j.src (g.func i) b) (g.func i).nextStm (fun _ => true) dest
  rw [hself] at hin
  refine hout ?_
  rw [← hext.chain hf.parent_lt hsrc]
  refine hin ?_ ?_ e ?_ ?_
  · show _ ∈ (Function.update (g.func i).block _ _ _).stms
    rw [Function.update_self]
    exact hnew
  · show (Function.update (g.func i).stm _ _ _).kind = _
    rw [Function.update_self]
  · rw [hext.stm dest hlt, hpar, hext.chain hf.parent_lt hdst]
    exact he
  · rw [hext.role e (by omega)]
    exact hemi

/-- **EMI sections are dead in every program whose gotos are made where the
sections are guarded against them**, whatever is pruned in them. The guard is
the weakest one: in every state reached so, it holds of the block a goto is to
be made in exactly where each goto the draws can make there leaves the
sections dead. -/
theorem emi_dead (cg : CGOptions) (g : State M) (h : (State.guardedSystem M cg).Reachable g) :
    (∀ P : ℕ → Func M, (∀ i, Prunes (g.func i) (P i)) → Dead P) ∧
      ∀ i b, cg.gotos = true → (g.func i).currentBlock = some b →
        ((g.func i).Guarded b ↔ ∀ draws condVar ok g',
          g.step cg i (.goto draws condVar ok) = some g' →
            ∀ P : ℕ → Func M, (∀ j, Prunes (g'.func j) (P j)) → Dead P) := by
  have hdead : ∀ {g' : State M}, (State.guardedSystem M cg).Reachable g' →
      ∀ P : ℕ → Func M, (∀ i, Prunes (g'.func i) (P i)) → Dead P := by
    intro g' h' P hP
    obtain ⟨hs, ha⟩ := apart_of_reachable h'
    exact dead_of_apart hs ha hP
  refine ⟨hdead h, fun i b hcg hb => ⟨fun hguard draws condVar ok g' hstep => ?_, fun hall => ?_⟩⟩
  · have hguards : g.Guards i (.goto draws condVar ok) := by
      intro c hc
      obtain rfl : b = c := Option.some.inj (hb.symm.trans hc)
      exact hguard
    exact hdead (h.step ⟨(i, .goto draws condVar ok), (if_pos hguards).trans hstep⟩)
  · have hs := (apart_of_reachable h).1
    refine (guarded_iff (hs.wf i)).mpr fun draws j hj hcross => ?_
    obtain ⟨g', hstep, hnot⟩ := not_dead_of_crosses hs hcg hb hj hcross
    exact hnot (hall _ _ _ g' hstep _ fun _ => .refl _)

/-- `lbl: g_2 = g_1; if (emi_input[0] < emi_input[1]) { int l_1; g_1 = 0; }
if (g_1) goto lbl;`: the section declares a variable, and the goto keeps to
the body. -/
def guardedEvents : List (ℕ × Event ℤ) :=
  [(0, .openBlock .body false), (0, .append (.simple id) []),
    (0, .openEmi false), (0, .newLocal 1 0), (0, .append (.simple fun _ => 0) []),
    (0, .closeBlock), (0, .openBlock .branch false), (0, .closeBlock),
    (0, .append (.emi 0 1 1 2) []), (0, .goto [0, 0, 0] (some fun m => decide (m ≠ 0)) true)]

theorem emi_dead_guarded :
    ∃ g, Common.runEvents (State.guardedStep ℤ {}) {} guardedEvents = some g ∧
      ((g.func 0).stm 3).kind = .goto (fun m => decide (m ≠ 0)) 0 ∧ Dead g.func := by
  refine ⟨_, rfl, rfl, (emi_dead {} _ ?_).1 _ fun _ => .refl _⟩
  exact Common.reachable_runEvents (.init rfl)
    (rfl : Common.runEvents (State.guardedStep ℤ {}) {} guardedEvents = some _)

/-! ## A jump into a section -/

/-- `g_2 = g_1; if (emi_input[0] < emi_input[1]) { lbl: g_1 = 0; }
if (g_1) goto lbl;`, for the value of `g_1`: the draws choose to go back, the
true block, and its one statement. -/
def jumpEvents : List (ℕ × Event ℤ) :=
  [(0, .openBlock .body false), (0, .append (.simple id) []),
    (0, .openEmi false), (0, .append (.simple fun _ => 0) []), (0, .closeBlock),
    (0, .openBlock .branch false), (0, .closeBlock), (0, .append (.emi 0 1 1 2) []),
    (0, .goto [0, 1, 0] (some fun m => decide (m ≠ 0)) true)]

/-- One thread goes a step while the others wait. -/
theorem step_alone {P : ℕ → Func M} {threads : ℕ → List (ℕ × Loc)} {m m' : M} {l l' : Loc}
    (h : LocalStep (P i) m l m' l') :
    Step P ⟨m, Function.update threads 0 [(i, l)]⟩ ⟨m', Function.update threads 0 [(i, l')]⟩ := by
  have hthread : Function.update threads 0 [(i, l)] 0 = [(i, l)] := Function.update_self ..
  have hstep : Step P ⟨m, Function.update threads 0 [(i, l)]⟩
      ⟨m', Function.update (Function.update threads 0 [(i, l)]) 0 [(i, l')]⟩ :=
    .run hthread h
  rwa [Function.update_idem] at hstep

/-- **A backward goto into a section** runs its statement. -/
theorem not_forall_emi_dead :
    ¬ ∀ (M : Type) (cg : CGOptions) (g : State M) (P : ℕ → Func M),
      (State.system M cg).Reachable g → (∀ i, Prunes (g.func i) (P i)) → Dead P := by
  intro hall
  let step (g : State ℤ) (e : ℕ × Event ℤ) : Option (State ℤ) := g.step {} e.1 e.2
  let g : State ℤ := (Common.runEvents step {} jumpEvents).getD {}
  have hreach : (State.system ℤ {}).Reachable g :=
    Common.reachable_runEvents (.init rfl) (rfl : Common.runEvents step {} jumpEvents = some _)
  have hdead := hall ℤ {} g g.func hreach fun _ => .refl _
  let at0 (l : Loc) : Config ℤ := ⟨5, Function.update (fun _ => [(0, .before 0)]) 0 [(0, l)]⟩
  have hinit : (kernel g.func 0).Reachable (at0 (.before 0)) := by
    refine .init fun t => ?_
    show Function.update (fun _ => [(0, Loc.before 0)]) 0 [(0, Loc.before 0)] t = _
    rw [Function.update_eq_self]
    rfl
  -- s0; the test is false; the empty false block; the goto is taken
  have h1 : Step g.func (at0 (.before 0)) (at0 (.before 2)) := by
    have hkind : ((g.func 0).stm 0).kind = .simple id := rfl
    exact step_alone (LocalStep.simple (m := 5) hkind)
  have h2 : Step g.func (at0 (.before 2)) (at0 (.endOf 2)) := by
    have hfalse : emiTest 0 1 = some false := emiTest_succ (by omega)
    exact step_alone (LocalStep.emi (f := g.func 0) (m := 5) (s := 2) (t := 1) (e := 2) rfl hfalse)
  have h3 : Step g.func (at0 (.endOf 2)) (at0 (.before 3)) :=
    step_alone (LocalStep.endEmi (f := g.func 0) (m := 5) (s := 2) rfl
      ⟨by decide, by decide⟩)
  have h4 : Step g.func (at0 (.before 3)) (at0 (.before 1)) :=
    step_alone (LocalStep.gotoTaken (f := g.func 0) (m := 5) (s := 3) rfl (by decide))
  have hin := hdead.never_run 0 _ ((((hinit.step h1).step h2).step h3).step h4) 0 0 1
    List.mem_cons_self 1 List.mem_cons_self
  exact absurd hin (by decide)

end EMI

end CLSmith
