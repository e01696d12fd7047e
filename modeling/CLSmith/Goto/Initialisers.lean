import CLSmith.Goto.Tracking
/-!
# Gotos and initialisers

A goto is checked against the local variables there are, and a local variable is
placed against the gotos there are: in every state of the generation of a function
the blocks a goto enters declare nothing and are in no loop.
-/

namespace CLSmith

namespace Generate

variable {M : Type}

/-- A jump between the two blocks enters no loop and skips no initialiser. -/
def KeepsOut (f : Func M) (src dst : ℕ) : Prop :=
  ∀ d ∈ f.chain dst, d ∉ f.chain src →
    (f.block d).inArrayLoop = false ∧ (f.block d).localVars = []

/-- No goto leads into the block from outside, by the edges. -/
def Closed (σ : FlowGraph M) (b : ℕ) : Prop := ∀ e ∈ σ.cfgEdges, ¬ σ.jumpsInto b e = true

/-- Every goto that leads into the block lies in it. -/
def GotosInside (σ : FlowGraph M) (b : ℕ) : Prop :=
  ∀ s test dest, Present σ.func (Roots σ.func) (.stm s) → σ.kind s = .goto test dest →
    b ∈ σ.func.chain (σ.parent dest) → b ∈ σ.func.chain (σ.parent s)

/-- **Jumps keep out.** What is not in an array loop is in no loop. A local variable
is in one block only, and no goto there is leads into a loop or past an initialiser. -/
structure Sealed (σ : FlowGraph M) : Prop extends Building σ where
  arrays : ∀ c < σ.func.nextBlock, (σ.func.block c).inArrayLoop = false →
    (σ.func.block c).role ≠ .loop ∧
      ∀ p, (σ.func.block c).parent = some p → (σ.func.block p).inArrayLoop = false
  unborn : ∀ c, σ.func.nextBlock ≤ c → (σ.func.block c).localVars = []
  unique : ∀ c d, ∀ v ∈ (σ.func.block c).localVars, v ∈ (σ.func.block d).localVars → c = d
  jumps : ∀ e ∈ σ.cfgEdges, ∀ s test dest, e.src = .stm s →
    (σ.func.stm s).kind = .goto test dest →
      KeepsOut σ.func (σ.func.stm s).parent (σ.func.stm dest).parent

variable {f f' : Func M} {σ σ' : FlowGraph M} {b c d s : ℕ}

/-! ## The block for a local variable -/

/-- The first block around a block that has a property has every other one with it
around it. -/
theorem find?_chain {p : ℕ → Bool} (hp : f.ParentLt) (hd : d ∈ f.chain b) (hpd : p d = true) :
    ∃ c, (f.chain b).find? p = some c ∧ d ∈ f.chain c := by
  induction b using Nat.strong_induction_on with
  | _ b ih =>
    by_cases hb : p b = true
    · refine ⟨b, ?_, hd⟩
      unfold Func.chain
      rw [Func.chainFrom, List.find?_cons_of_pos hb]
    · cases hpar : (f.block b).parent with
      | none =>
        rw [Func.chain_of_none hpar] at hd
        rw [List.mem_singleton.mp hd] at hpd
        exact absurd hpd hb
      | some q =>
        rw [Func.chain_of_parent hp hpar] at hd ⊢
        rw [List.find?_cons_of_neg hb]
        rcases List.mem_cons.mp hd with rfl | hd
        · exact absurd hpd hb
        · exact ih q (hp b q hpar) hd

theorem jumpsInto_iff {e : CFGEdge} : σ.jumpsInto b e = true ↔
    σ.fromGoto e = true ∧ σ.inBlock b e.dest = true ∧ ¬ σ.inBlock b e.src = true := by
  unfold FlowGraph.jumpsInto
  simp only [Bool.and_eq_true, Bool.not_eq_true', Bool.not_eq_true, and_assoc]

/-- What is in a block is in the blocks around it. -/
theorem inBlock_mono {n : Node} (hp : σ.func.ParentLt) (h : σ.inBlock b n = true)
    (hd : d ∈ σ.func.chain b) : σ.inBlock d n = true := by
  cases n with
  | stm s => exact decide_eq_true (Func.chain_subset hp (of_decide_eq_true h) hd)
  | block c => exact decide_eq_true (Func.chain_subset hp (of_decide_eq_true h) hd)

theorem exists_of_fromGoto {e : CFGEdge} (h : σ.fromGoto e = true) :
    ∃ s test dest, e.src = .stm s ∧ σ.kind s = .goto test dest := by
  unfold FlowGraph.fromGoto at h
  split at h
  · next s hsrc =>
    split at h
    · next test dest hk => exact ⟨s, test, dest, hsrc, hk⟩
    · cases h
  · cases h

namespace Building

variable (h : Building σ)
include h

/-- The edge of a goto leads from it to its destination. -/
theorem edge_goto {e : CFGEdge} {test : M → Bool} {dest : ℕ} (he : e ∈ σ.cfgEdges)
    (hsrc : e.src = .stm s) (hk : (σ.func.stm s).kind = .goto test dest) :
    Present σ.func (Roots σ.func) (.stm s) ∧ Present σ.func (Roots σ.func) (.stm dest) ∧
      e.dest = .stm dest := by
  obtain ⟨hs, hd, hok⟩ := h.tracked.edge e he
  unfold EdgeOk at hok
  simp only [hsrc, hk] at hok
  rw [hsrc] at hs
  rw [hok] at hd
  exact ⟨hs, hd, hok⟩

theorem present_lt (hs : Present σ.func (Roots σ.func) (.stm s)) :
    s < σ.func.nextStm ∧ (σ.func.stm s).parent < σ.func.nextBlock :=
  ⟨(h.wf.mem_stms _ s hs.1).1, h.wf.within_lt hs.2⟩

/-- **`expand_block_for_goto` ends** with the first block around its own that no
goto leads into from outside. -/
theorem expandFrom_spec {n : ℕ} (hn : b < n) (hb : b < σ.func.nextBlock) :
    ∃ b', σ.expandFrom n b = some b' ∧ b' ∈ σ.func.chain b ∧ Closed σ b' ∧
      ∀ d ∈ σ.func.chain b, Closed σ d → d ∈ σ.func.chain b' := by
  have hp := h.wf.parent_lt
  induction n generalizing b with
  | zero => omega
  | succ n ih =>
    unfold FlowGraph.expandFrom
    cases hfind : σ.cfgEdges.find? (σ.jumpsInto b) with
    | none =>
      exact ⟨b, rfl, Func.mem_chain_self, List.find?_eq_none.mp hfind, fun d hd _ => hd⟩
    | some e =>
      have he := List.mem_of_find?_eq_some hfind
      obtain ⟨hgoto, hdest, hsrc⟩ := jumpsInto_iff.mp (List.find?_some hfind)
      obtain ⟨s, test, dest, hs, hk⟩ := exists_of_fromGoto hgoto
      have hlt := (h.present_lt (h.edge_goto he hs hk).1).2
      -- the body is around both ends
      have hbody : σ.inBlock 0 e.src = true := by
        rw [hs]
        exact decide_eq_true (h.body_mem_chain hlt)
      obtain ⟨c, hc, -⟩ := find?_chain (p := fun c => σ.inBlock c e.src) hp
        (h.body_mem_chain hb) hbody
      have hcb := List.mem_of_find?_eq_some hc
      have hcsrc : σ.inBlock c e.src = true := List.find?_some (p := fun c => σ.inBlock c e.src) hc
      have hle := Func.lt_of_mem_chain hp hcb
      have hne : c ≠ b := by
        rintro rfl
        exact hsrc hcsrc
      obtain ⟨b', hrun, hb', hclosed, hleast⟩ := ih (b := c) (by omega) (by omega)
      refine ⟨b', ?_, Func.chain_subset hp hcb hb', hclosed, fun d hd hdc => ?_⟩
      · dsimp only
        rw [hc, Option.bind_some, hrun]
      · refine hleast d ?_ hdc
        -- a closed block around `b` has the source of the edge in it
        have hdsrc : σ.inBlock d e.src = true := by
          by_contra hnot
          exact hdc e he (jumpsInto_iff.mpr ⟨hgoto, inBlock_mono hp hdest hd, hnot⟩)
        obtain ⟨c', hc', hdc'⟩ := find?_chain (p := fun c => σ.inBlock c e.src) hp hd hdsrc
        rw [hc] at hc'
        obtain rfl := Option.some.inj hc'
        exact hdc'

theorem closed_iff : Closed σ b ↔ GotosInside σ b := by
  constructor
  · intro hc s test dest hs hk hb
    by_contra hnot
    have hnone : ¬ Inside σ [] (.stm s) := by
      rintro ⟨z, hz, -⟩
      cases hz
    obtain ⟨back, he⟩ := (h.tracked.goto s hs test dest hk).resolve_right hnone
    refine hc _ he (jumpsInto_iff.mpr ⟨?_, decide_eq_true hb, ?_⟩)
    · simp only [FlowGraph.fromGoto, hk]
    · simpa [FlowGraph.inBlock] using hnot
  · intro hin e he hjump
    obtain ⟨hgoto, hdest, hsrc⟩ := jumpsInto_iff.mp hjump
    obtain ⟨s, test, dest, hs, hk⟩ := exists_of_fromGoto hgoto
    obtain ⟨hpresent, -, hd⟩ := h.edge_goto he hs hk
    rw [hd] at hdest
    refine hsrc ?_
    rw [hs]
    exact decide_eq_true (hin s test dest hpresent hk (of_decide_eq_true hdest))

end Building

/-! ## Jumps that keep out -/

/-- What is around a block that is in no array loop is in none. -/
theorem Sealed.chain_arrays (h : Sealed σ) (hb : b < σ.func.nextBlock)
    (harray : (σ.func.block b).inArrayLoop = false) (hd : d ∈ σ.func.chain b) :
    (σ.func.block d).inArrayLoop = false ∧ (σ.func.block d).role ≠ .loop := by
  induction b using Nat.strong_induction_on with
  | _ b ih =>
    obtain ⟨hrole, hparent⟩ := h.arrays b hb harray
    cases hpar : (σ.func.block b).parent with
    | none =>
      rw [Func.chain_of_none hpar] at hd
      rw [List.mem_singleton.mp hd]
      exact ⟨harray, hrole⟩
    | some p =>
      have hlt := h.wf.parent_lt b p hpar
      rw [Func.chain_of_parent h.wf.parent_lt hpar] at hd
      rcases List.mem_cons.mp hd with rfl | hd
      · exact ⟨harray, hrole⟩
      · exact ih p hlt (by omega) (hparent p hpar) hd

/-- **The checks of a jump drawn keep it out.** -/
theorem Sealed.jump_keepsOut (h : Sealed σ) {draws : Tape} {j : Func.Jump}
    (hb : σ.func.currentBlock = some b) (hj : σ.func.jump b draws = some j)
    (hne : (σ.func.block (j.dst σ.func b)).stms ≠ []) :
    KeepsOut σ.func (j.src σ.func b) (j.dst σ.func b) := by
  obtain ⟨hmem, hgood, hcurrent⟩ := Func.jump_spec hj
  have hpar := (h.wf.mem_stms _ _ (Func.mem_of_jump hj)).2
  have hblt := h.stack_lt (Func.current_mem hb)
  have hjlt := h.wf.within_lt (h.tracked.blocks _ hmem)
  have hp := h.wf.parent_lt
  -- where neither the array loop nor the variables are in the way
  have hkeep : ∀ {src dst}, dst < σ.func.nextBlock → (σ.func.block dst).inArrayLoop = false →
      σ.func.hasInitSkippedVars src dst = false → KeepsOut σ.func src dst :=
    fun hlt harray hskip d hd hnot => ⟨(h.chain_arrays hlt harray hd).1,
      Func.localVars_of_not_skipped hp h.unique hskip hd hnot⟩
  have hself : ∀ {c}, KeepsOut σ.func c c := fun d hd hnot => absurd hd hnot
  unfold Func.Jump.src Func.Jump.dst at *
  rw [hpar] at *
  unfold Func.goodJumpBlock at hgood
  cases hback : j.backEdge with
  | true =>
    simp only [hback, if_true, Bool.and_true] at hgood hne ⊢
    split at hgood
    · cases hgood
    · next harray =>
      split at hgood
      · cases hgood
      · next s rest hstms =>
        simp only [Bool.not_true, Bool.and_false, Bool.false_eq_true, if_false] at hgood
        split at hgood
        · next heq =>
          rw [heq]
          exact hself
        · have hs : s ∈ (σ.func.block j.block).stms := by
            rw [hstms]
            exact List.mem_cons_self
          rw [(h.wf.mem_stms _ s hs).2] at hgood
          exact hkeep hjlt (by simpa using harray) (by simpa using hgood)
  | false =>
    simp only [hback, Bool.false_eq_true, if_false, Bool.and_false] at hgood hne ⊢
    split at hgood
    · cases hgood
    · simp only [Bool.not_false, Bool.and_true] at hgood
      split at hgood
      · cases hgood
      · split at hgood
        · next heq =>
          rw [heq]
          exact hself
        · split at hgood
          · next hnil => exact absurd hnil hne
          · next s' rest hstms =>
            have hs : s' ∈ (σ.func.block b).stms := by
              rw [hstms]
              exact List.mem_cons_self
            rw [(h.wf.mem_stms _ s' hs).2] at hgood
            exact hkeep hblt (hcurrent hback) (by simpa using hgood)

/-! ## Every event keeps them out -/

theorem KeepsOut.grown {src dst : ℕ} (h : KeepsOut f src dst) (hg : Grown f f')
    (hsrc : src < f.nextBlock) (hdst : dst < f.nextBlock)
    (hsame : ∀ d < f.nextBlock, (f'.block d).inArrayLoop = (f.block d).inArrayLoop ∧
      (f'.block d).localVars = (f.block d).localVars) : KeepsOut f' src dst := by
  intro d hd hnot
  rw [hg.chain hdst] at hd
  rw [hg.chain hsrc] at hnot
  have hle := Func.lt_of_mem_chain hg.wf.parent_lt hd
  obtain ⟨harray, hvars⟩ := hsame d (by omega)
  rw [harray, hvars]
  exact h d hd hnot

namespace Sealed

variable (h : Sealed σ)
include h

/-- The old jumps stay out where the old blocks stay as they are. -/
theorem jumps_grown (hg : Grown σ.func σ'.func)
    (hsame : ∀ d < σ.func.nextBlock,
      (σ'.func.block d).inArrayLoop = (σ.func.block d).inArrayLoop ∧
        (σ'.func.block d).localVars = (σ.func.block d).localVars)
    {e : CFGEdge} (he : e ∈ σ.cfgEdges) {test : M → Bool} {dest : ℕ} (hsrc : e.src = .stm s)
    (hk : (σ'.func.stm s).kind = .goto test dest) :
    KeepsOut σ'.func (σ'.func.stm s).parent (σ'.func.stm dest).parent := by
  have hs := (h.tracked.edge e he).1
  rw [hsrc] at hs
  obtain ⟨hslt, hsp⟩ := h.present_lt hs
  rw [hg.ext.stm s hslt] at hk ⊢
  obtain ⟨hdlt, hdp⟩ := h.present_lt (h.edge_goto he hsrc hk).2.1
  rw [hg.ext.stm dest hdlt]
  exact (h.jumps e he s test dest hsrc hk).grown hg hsp hdp hsame

theorem openBlock {role : Role} {inArrayLoop : Bool} (ho : σ.func.MayOpen role inArrayLoop) :
    Sealed { σ with func := σ.func.openBlock role inArrayLoop } := by
  have hblock : ∀ b, b ≠ σ.func.nextBlock →
      (σ.func.openBlock role inArrayLoop).block b = σ.func.block b :=
    fun b hb => Function.update_of_ne hb _ _
  have hnew : (σ.func.openBlock role inArrayLoop).block σ.func.nextBlock =
      ⟨σ.func.currentBlock, role, inArrayLoop, [], []⟩ := Function.update_self ..
  have hvars : ∀ c, ((σ.func.openBlock role inArrayLoop).block c).localVars =
      (σ.func.block c).localVars := by
    intro c
    by_cases hc : c = σ.func.nextBlock
    · rw [hc, hnew, h.unborn _ (Nat.le_refl _)]
    · rw [hblock c hc]
  refine ⟨h.toBuilding.openBlock ho, ?_, ?_, ?_, ?_⟩
  · intro c hc harray
    dsimp only at harray ⊢
    rcases Nat.lt_succ_iff_lt_or_eq.mp hc with hlt | rfl
    · rw [hblock c (by omega)] at harray ⊢
      obtain ⟨hrole, hparent⟩ := h.arrays c hlt harray
      refine ⟨hrole, fun p hp => ?_⟩
      have := h.wf.parent_lt c p hp
      rw [hblock p (by omega)]
      exact hparent p hp
    · rw [hnew] at harray ⊢
      dsimp only at harray ⊢
      subst harray
      refine ⟨fun hrole => absurd (ho.2.2 (.inl hrole)) Bool.false_ne_true, fun p hp => ?_⟩
      have := Func.currentBlock_lt h.wf hp
      rw [hblock p (by omega)]
      -- a block in an array loop makes every block in it one
      by_contra hin
      rw [Bool.not_eq_false] at hin
      refine absurd (ho.2.2 (.inr ?_)) Bool.false_ne_true
      rw [hp]
      exact hin
  · intro c hc
    dsimp only at hc ⊢
    rw [hvars]
    exact h.unborn c (Nat.le_of_succ_le hc)
  · intro c d v hv hv'
    dsimp only at hv hv'
    rw [hvars] at hv hv'
    exact h.unique c d v hv hv'
  · intro e he s test dest hsrc hk
    refine @jumps_grown M σ { σ with func := σ.func.openBlock role inArrayLoop } s h
      (h.grown_openBlock ho) (fun d hd => ?_) e he test dest hsrc hk
    rw [hblock d (by omega)]
    exact ⟨rfl, rfl⟩

/-- A variable is declared where no goto leads from outside. -/
theorem newLocal {v blk : ℕ} (hb : b ∈ σ.func.stack) (hv : σ.func.NewName v)
    (hblk : σ.expandBlockForGoto b = some blk) :
    Sealed { σ with func := σ.func.newLocal blk v } := by
  have hblt := h.stack_lt hb
  obtain ⟨b', hrun, hmem, hclosed, -⟩ := h.expandFrom_spec (Nat.lt_succ_self b) hblt
  obtain rfl : b' = blk := Option.some.inj (hrun.symm.trans hblk)
  have hlt : b' < σ.func.nextBlock := by
    have := Func.lt_of_mem_chain h.wf.parent_lt hmem
    omega
  have hself : ((σ.func.newLocal b' v).block b').localVars =
      (σ.func.block b').localVars ++ [v] := by
    simp [Func.newLocal]
  have hother : ∀ d, d ≠ b' → ((σ.func.newLocal b' v).block d).localVars =
      (σ.func.block d).localVars := by
    intro d hd
    simp [Func.newLocal, hd]
  have harray : ∀ d, ((σ.func.newLocal b' v).block d).inArrayLoop =
      (σ.func.block d).inArrayLoop := by
    intro d
    by_cases hd : d = b'
    · rw [hd]
      simp [Func.newLocal]
    · simp [Func.newLocal, hd]
  have hparent : ∀ c, ((σ.func.newLocal b' v).block c).parent = (σ.func.block c).parent :=
    Func.update_parent rfl rfl
  have hrole : ∀ c, ((σ.func.newLocal b' v).block c).role = (σ.func.block c).role :=
    Func.update_role rfl rfl
  have hchain : ∀ c, (σ.func.newLocal b' v).chain c = σ.func.chain c :=
    fun c => Func.chain_congr h.wf.parent_lt fun d _ => hparent d
  -- no other block has the variable
  have hfresh : ∀ d, v ∉ (σ.func.block d).localVars := by
    intro d
    by_cases hd : d < σ.func.nextBlock
    · exact hv d hd
    · rw [h.unborn d (by omega)]
      exact List.not_mem_nil
  have hcases : ∀ d w, w ∈ ((σ.func.newLocal b' v).block d).localVars →
      w ∈ (σ.func.block d).localVars ∨ d = b' ∧ w = v := by
    intro d w hw
    by_cases hd : d = b'
    · subst hd
      rw [hself] at hw
      exact (List.mem_append.mp hw).imp_right fun hw => ⟨rfl, List.mem_singleton.mp hw⟩
    · rw [hother d hd] at hw
      exact .inl hw
  refine ⟨h.toBuilding.newLocal b' v, ?_, ?_, ?_, ?_⟩
  · intro c hc hin
    dsimp only at hin ⊢
    rw [harray] at hin
    rw [hrole, hparent]
    obtain ⟨hloop, hpar⟩ := h.arrays c hc hin
    refine ⟨hloop, fun p hp => ?_⟩
    rw [harray]
    exact hpar p hp
  · intro c hc
    have hle : σ.func.nextBlock ≤ c := hc
    dsimp only
    rw [hother c (by omega)]
    exact h.unborn c hc
  · intro c d w hw hw'
    rcases hcases c w hw with hold | ⟨rfl, rfl⟩
    · rcases hcases d w hw' with hold' | ⟨rfl, rfl⟩
      · exact h.unique c d w hold hold'
      · exact absurd hold (hfresh c)
    · rcases hcases d w hw' with hold' | ⟨rfl, -⟩
      · exact absurd hold' (hfresh d)
      · rfl
  · intro e he s test dest hsrc hk d hd hnot
    dsimp only at hd hnot ⊢
    rw [hchain] at hd hnot
    have hne : d ≠ b' := by
      rintro rfl
      obtain ⟨-, -, hdest⟩ := h.edge_goto he hsrc hk
      refine hclosed e he (jumpsInto_iff.mpr ⟨?_, ?_, ?_⟩)
      · have hkind : σ.kind s = .goto test dest := hk
        simp only [FlowGraph.fromGoto, hsrc, hkind]
      · rw [hdest]
        exact decide_eq_true hd
      · rw [hsrc]
        exact fun hin => hnot (of_decide_eq_true hin)
    rw [harray, hother d hne]
    exact h.jumps e he s test dest hsrc hk d hd hnot

/-- A new statement, with edges that are not of gotos that enter anything. -/
theorem newStm {k : Kind M} {calls stms : List ℕ} (hfunc : σ'.func = σ.func.newStm b k calls stms)
    (hbuild : Building σ') (hg : Grown σ.func (σ.func.newStm b k calls stms))
    (hedges : ∀ e ∈ σ'.cfgEdges, e ∈ σ.cfgEdges ∨ ∀ s test dest, e.src = .stm s →
      (σ'.func.stm s).kind = .goto test dest →
        KeepsOut σ'.func (σ'.func.stm s).parent (σ'.func.stm dest).parent) : Sealed σ' := by
  have hblock : ∀ d, σ'.func.block d = { σ.func.block d with stms := (σ'.func.block d).stms } := by
    intro d
    rw [hfunc]
    by_cases hd : d = b
    · rw [hd]
      simp [Func.newStm, Func.setStms]
    · simp [Func.newStm, Func.setStms, hd]
  have hnext : σ'.func.nextBlock = σ.func.nextBlock := by
    rw [hfunc]
    rfl
  refine ⟨hbuild, ?_, ?_, ?_, ?_⟩
  · intro c hc hin
    rw [hnext] at hc
    rw [hblock] at hin ⊢
    obtain ⟨hloop, hpar⟩ := h.arrays c hc hin
    refine ⟨hloop, fun p hp => ?_⟩
    rw [hblock]
    exact hpar p hp
  · intro c hc
    rw [hnext] at hc
    rw [hblock]
    exact h.unborn c hc
  · intro c d v hv hv'
    rw [hblock] at hv hv'
    exact h.unique c d v hv hv'
  · intro e he s test dest hsrc hk
    rcases hedges e he with he | hout
    · rw [← hfunc] at hg
      refine h.jumps_grown hg (fun d _ => ?_) he hsrc hk
      rw [hblock]
      exact ⟨rfl, rfl⟩
    · exact hout s test dest hsrc hk

/-- A removal leaves blocks, and the jumps that are left, as they are. -/
theorem shrunk (hbuild : Building σ') (hsh : Shrunk σ.func σ'.func) : Sealed σ' := by
  have hchain := hsh.chain h.wf.parent_lt
  refine ⟨hbuild, ?_, ?_, ?_, ?_⟩
  · rw [hsh.nextBlock]
    intro c hc hin
    rw [hsh.block] at hin ⊢
    obtain ⟨hloop, hpar⟩ := h.arrays c hc hin
    refine ⟨hloop, fun p hp => ?_⟩
    rw [hsh.block]
    exact hpar p hp
  · rw [hsh.nextBlock]
    intro c hc
    rw [hsh.block]
    exact h.unborn c hc
  · intro c d v hv hv'
    rw [hsh.block] at hv hv'
    exact h.unique c d v hv hv'
  · intro e he s test dest hsrc hk
    have hroots : Roots σ'.func = Roots σ.func := by
      unfold Roots
      rw [hsh.stack, hsh.made]
    -- the goto is there, so it was there with an edge
    obtain ⟨hmem, hW⟩ := (hbuild.edge_goto he hsrc hk).1
    rw [hroots] at hW
    rw [hsh.stm] at hk hmem hW
    have hnone : ¬ Inside σ [] (.stm s) := by
      rintro ⟨z, hz, -⟩
      cases hz
    obtain ⟨back, he'⟩ := (h.tracked.goto s ⟨(hsh.stms _).subset hmem, hsh.within hW⟩ test dest
      hk).resolve_right hnone
    rw [hsh.stm]
    intro d hd hnot
    rw [hchain] at hd hnot
    rw [hsh.block]
    exact h.jumps _ he' s test dest rfl hk d hd hnot

/-- **Every event keeps jumps out.** -/
theorem moves (hm : σ.Moves σ') : Sealed σ' := by
  have hbuild := h.toBuilding.moves hm
  cases hm with
  | openBlock ho => exact h.openBlock ho
  | closeBlock hc =>
    have hchain : ∀ c, σ.func.closeBlock.chain c = σ.func.chain c :=
      fun c => Func.chain_congr h.wf.parent_lt fun _ _ => rfl
    refine ⟨hbuild, h.arrays, h.unborn, h.unique, fun e he s test dest hsrc hk d hd hnot => ?_⟩
    dsimp only at hd hnot
    rw [hchain] at hd hnot
    exact h.jumps e he s test dest hsrc hk d hd hnot
  | newLocal hb hv hblk => exact h.newLocal hb hv hblk
  | @append b k calls hb hk =>
    have hg : Grown σ.func (σ.func.newStm b k calls (σ.stms b ++ [σ.func.nextStm])) :=
      h.grown_append hb hk
    refine h.newStm rfl hbuild hg fun e he => (List.mem_append.mp he).imp_right fun he => ?_
    -- no edge that comes with a statement appended is one of a goto
    intro s test dest hsrc hgoto
    exfalso
    cases k with
    | cont test' =>
      simp only [FlowGraph.edgesOf] at he
      split at he
      · rw [List.mem_singleton.mp he] at hsrc
        cases hsrc
        simp [FlowGraph.append, Func.newStm] at hgoto
      · cases he
    | forLoop init test' incr body =>
      obtain ⟨x, hx, rfl⟩ := List.mem_map.mp he
      obtain rfl : x = s := Node.stm.inj hsrc
      obtain ⟨⟨test'', hbrk⟩, -, hp⟩ := h.tracked.break_stms body x hx
      have hxlt := (h.present_lt (hp (.root (.inr hk.1)))).1
      have hold : ((σ.append b (.forLoop init test' incr body) calls).func.stm x) =
          σ.func.stm x := Function.update_of_ne (by omega) _ _
      rw [hold, hbrk] at hgoto
      cases hgoto
    | simple run => cases he
    | ret => cases he
    | brk test' => cases he
    | goto test' dest' => cases he
    | ifElse test' t e => cases he
    | emi i j t e => cases he
  | @goto b draws j test ok _ hb hj hmk =>
    rcases h.makeGoto_cases hb hj hmk with rfl | ⟨dest, stms, back, rfl, hW, hdest, hpar, hspec⟩
    · exact h
    · have hlt := h.wf.within_lt hW
      have hg : Grown σ.func (σ.func.newStm (j.src σ.func b) (.goto test dest) [] stms) :=
        h.grown_newStm hlt (h.present_lt hdest).1
          (fun d hd => absurd hd List.not_mem_nil) hspec.1 hspec.2.1 hspec.2.2.1 hspec.2.2.2
      refine h.newStm rfl hbuild hg fun e he => (List.mem_append.mp he).imp_right fun he => ?_
      rw [List.mem_singleton.mp he]
      intro s test' dest' hsrc hk
      cases hsrc
      have hnew : ((σ.func.newStm (j.src σ.func b) (.goto test dest) [] stms).stm
          σ.func.nextStm) = ⟨j.src σ.func b, .goto test dest, []⟩ := Function.update_self ..
      dsimp only at hk ⊢
      rw [hnew] at hk ⊢
      cases hk
      have hstms : (σ.func.block (σ.func.stm dest).parent).stms ≠ [] :=
        List.ne_nil_of_mem hdest.1
      obtain ⟨hdlt, hdp⟩ := h.present_lt hdest
      rw [hg.ext.stm dest hdlt, hpar]
      rw [hpar] at hstms hdp
      -- the jump was checked in the function as it was; the goto changes no block but its own
      refine (h.jump_keepsOut hb hj hstms).grown hg hlt hdp fun d _ => ?_
      by_cases hd : d = j.src σ.func b
      · rw [hd]
        simp [Func.newStm, Func.setStms]
      · simp [Func.newStm, Func.setStms, hd]
  | idle => exact h
  | selfEdge hb =>
    refine ⟨hbuild, h.arrays, h.unborn, h.unique, fun e he s test dest hsrc hk => ?_⟩
    rcases List.mem_append.mp he with he | he
    · exact h.jumps e he s test dest hsrc hk
    · rw [List.mem_singleton.mp he] at hsrc
      cases hsrc
  | removeStmt hb hs hrun =>
    exact h.shrunk hbuild (h.toBuilding.removeStmt hb hs hrun).2

end Sealed

theorem sealed_of_reachable {cg : CGOptions} (h : (FlowGraph.system M cg).Reachable σ) :
    Sealed σ := by
  refine Common.invariant_of_events (I := Sealed) ?_ ?_ h
  · exact ⟨building_empty, fun c hc => absurd hc (Nat.not_lt_zero c), fun _ _ => rfl,
      fun _ _ _ hv => absurd hv List.not_mem_nil, fun _ he => absurd he List.not_mem_nil⟩
  · intro σ e σ' hs hstep
    exact hs.moves (FlowGraph.moves_of_step hstep)

/-- **No goto bypasses an initialiser or enters a loop**, in any state of the
generation of a function; and a local variable of a block goes to the innermost block
around it in which every goto into it lies. -/
theorem gotos_keep_out {cg : CGOptions} (h : (FlowGraph.system M cg).Reachable σ) :
    (∀ s test dest, Present σ.func (Roots σ.func) (.stm s) → σ.kind s = .goto test dest →
      ∀ b ∈ σ.func.chain (σ.parent dest), b ∉ σ.func.chain (σ.parent s) →
        (∀ c ∈ σ.func.chain b, (σ.func.block c).role ≠ .loop) ∧
          (σ.func.block b).localVars = []) ∧
    ∀ b < σ.func.nextBlock, ∃ b', σ.expandBlockForGoto b = some b' ∧ b' ∈ σ.func.chain b ∧
      GotosInside σ b' ∧ ∀ d ∈ σ.func.chain b, GotosInside σ d → d ∈ σ.func.chain b' := by
  have hs := sealed_of_reachable h
  refine ⟨fun s test dest hpresent hk b hb hnot => ?_, fun b hb => ?_⟩
  · have hnone : ¬ Inside σ [] (.stm s) := by
      rintro ⟨z, hz, -⟩
      cases hz
    obtain ⟨back, he⟩ := (hs.tracked.goto s hpresent test dest hk).resolve_right hnone
    obtain ⟨harray, hvars⟩ := hs.jumps _ he s test dest rfl hk b hb hnot
    have hlt := (hs.present_lt (hs.edge_goto he rfl hk).2.1).2
    have hle := Func.lt_of_mem_chain hs.wf.parent_lt hb
    have hle' : b ≤ (σ.func.stm dest).parent := hle
    exact ⟨fun c hc => (hs.chain_arrays (by omega) harray hc).2, hvars⟩
  · obtain ⟨b', hrun, hmem, hclosed, hleast⟩ := hs.expandFrom_spec (Nat.lt_succ_self b) hb
    exact ⟨b', hrun, hmem, hs.closed_iff.mp hclosed,
      fun d hd hin => hleast d hd (hs.closed_iff.mpr hin)⟩

/-- `g_1 = 0; if (..) { lbl: g_1 = 0; } else { } if (g_1) goto lbl;`: a goto into a
branch. -/
def branchEvents : List (FlowEvent Unit) :=
  [.openBlock .body false, .append (.simple id) [],
    .openBlock .branch false, .append (.simple id) [], .closeBlock,
    .openBlock .branch false, .closeBlock, .append (.ifElse (fun _ => true) 1 2) [],
    .goto [0, 1, 0] (some fun _ => true) true]

theorem gotos_keep_out_branch :
    ∃ σ, FlowGraph.run { func := {} } {} branchEvents = some σ ∧ σ.expandBlockForGoto 1 = some 0 ∧
      (∀ s test dest, Present σ.func (Roots σ.func) (.stm s) → σ.kind s = .goto test dest →
        ∀ b ∈ σ.func.chain (σ.parent dest), b ∉ σ.func.chain (σ.parent s) →
          (∀ c ∈ σ.func.chain b, (σ.func.block c).role ≠ .loop) ∧
            (σ.func.block b).localVars = []) ∧
      ∀ b < σ.func.nextBlock, ∃ b', σ.expandBlockForGoto b = some b' ∧ b' ∈ σ.func.chain b ∧
        GotosInside σ b' ∧ ∀ d ∈ σ.func.chain b, GotosInside σ d → d ∈ σ.func.chain b' := by
  refine ⟨_, rfl, by decide, @gotos_keep_out _ _ {} ?_⟩
  exact Common.reachable_runEvents (.init rfl)
    (rfl : FlowGraph.run { func := {} } {} branchEvents = some _)

end Generate

end CLSmith
