import CLSmith.Divergence.Levels
import CLSmith.Divergence.Barriers
/-!
# The sections of a processed function

What is reported of a function is read off what processing left: a sub block for
its body and one for each block a branch was found to, each the whole of its
block, as none is ever split. Because the walk comes to every branch, in the
order of the text, these are the sub blocks the placing of barriers relies on.
-/

namespace CLSmith

namespace Divergence

open Common Generate Walker

variable {M V F : Type} {n : ℕ}

/-- **`SubBlock(Block *)`**, with what is kept for it. An empty block has none. -/
def SubBlock.ofBlock (stms : List ℕ) (divFinal : Bool) (scopeLevelsFinal : List (ℕ × ℕ)) :
    Option SubBlock := do
  let beginStatement ← stms.head?
  let endStatement ← stms.getLast?
  return ⟨beginStatement, endStatement, divFinal, scopeLevelsFinal⟩

/-- The statement of the block `b` that branches to `c`. -/
def branchStatement (f : Func M) (b c : ℕ) : Option ℕ :=
  (f.block b).stms.find? fun s => decide (c ∈ (f.stm s).kind.blocks)

/-- **The `FunctionDivergence`** of the function `name` when processing has left
`s`. A block that no branch was found to has no sub block. -/
def FunctionDivergence.ofState (f : Func M) (s : Process.State V F (Fin n)) (name : F)
    (body : Fin n) : FunctionDivergence where
  done := true
  blockToSubBlockFinal b :=
    if h : b < n then
      if ⟨b, h⟩ = body ∨ ∃ c, ⟨b, h⟩ ∈ s.scopeLevelsFinal name c then
        (SubBlock.ofBlock (f.block b).stms (decide (⟨b, h⟩ ∈ s.subBlockDivFinal name))
          ((s.scopeLevelsFinal name ⟨b, h⟩).filterMap fun c : Fin n =>
            (branchStatement f b c).map fun stm => (stm, c.val))).toList
      else []
    else []

/-- **A list of statements as it is processed and as it is walked**: the same
statements branch to the same blocks. -/
inductive Transcribed : List (Process.Statement V F (Fin n)) → Stms ℕ ℕ → Prop
  | nil : Transcribed [] .nil
  | leaf {stm : Process.Statement V F (Fin n)} {stms : List (Process.Statement V F (Fin n))}
      {rest : Stms ℕ ℕ} (s : ℕ) : stm.branchBlocks = [] → Transcribed stms rest →
      Transcribed (stm :: stms) (.leaf s rest)
  | ifElse {test : Process.Expr V F (Fin n)} {t e : Fin n}
      {tVars eVars : List (V × Process.Expr V F (Fin n))}
      {ts es stms : List (Process.Statement V F (Fin n))} {T E rest : Stms ℕ ℕ} (s : ℕ) :
      Transcribed ts T → Transcribed es E → Transcribed stms rest →
      Transcribed (.ifElse test (.mk t tVars ts) (some (.mk e eVars es)) :: stms)
        (.ifElse s t e T E rest)
  | forLoop {initLhs incrLhs : Process.Lhs V} {initRhs test incrRhs : Process.Expr V F (Fin n)}
      {c : Fin n} {localVars : List (V × Process.Expr V F (Fin n))}
      {cs stms : List (Process.Statement V F (Fin n))} {C rest : Stms ℕ ℕ} (s : ℕ) :
      Transcribed cs C → Transcribed stms rest →
      Transcribed (.for initLhs initRhs test incrLhs incrRhs (.mk c localVars cs) :: stms)
        (.forLoop s c C rest)

section

variable {f : Func M} {T : Stms ℕ ℕ} {stms : List (Process.Statement V F (Fin n))}

theorem Transcribed.map_branches (h : Transcribed stms T) :
    (branches T).map Prod.snd = (Process.branchBlocks stms).map Fin.val := by
  induction h with
  | nil => rfl
  | leaf s hstm _ ih =>
    rw [branches, ih, Process.branchBlocks, Process.branchBlocks, List.flatMap_cons, hstm,
      List.nil_append]
  | ifElse s _ _ _ _ _ ih =>
    rw [branches, List.map_cons, List.map_cons, ih]
    rfl
  | forLoop s _ _ _ ih =>
    rw [branches, List.map_cons, ih]
    rfl

theorem mem_blocks_of_mem_branches {br : ℕ × ℕ} (h : br ∈ branches T) : br.2 ∈ T.blocks := by
  induction T with
  | nil => exact absurd h List.not_mem_nil
  | leaf s rest ih => exact ih h
  | ifElse s t e T E rest _ _ ih =>
    simp only [Stms.blocks, List.mem_append, List.mem_cons]
    rcases List.mem_cons.1 h with rfl | h
    · exact .inr (.inl rfl)
    · rcases List.mem_cons.1 h with rfl | h
      · exact .inr (.inr (.inr (.inl rfl)))
      · exact .inr (.inr (.inr (.inr (ih h))))
  | forLoop s c C rest _ ih =>
    simp only [Stms.blocks, List.mem_append, List.mem_cons]
    rcases List.mem_cons.1 h with rfl | h
    · exact .inr (.inl rfl)
    · exact .inr (.inr (ih h))

/-- **Each branch is found with its statement**, as no other has it. -/
theorem find_branch (hT : Filled f T) (hnodup : T.blocks.Nodup) {br : ℕ × ℕ}
    (h : br ∈ branches T) :
    T.roots.find? (fun s => decide (br.2 ∈ (f.stm s).kind.blocks)) = some br.1 := by
  induction T with
  | nil => exact absurd h List.not_mem_nil
  | leaf s rest ih =>
    rw [Stms.roots, List.find?_cons_of_neg (by simp [hT.1])]
    exact ih hT.2 hnodup h
  | ifElse s t e T E rest _ _ ih =>
    obtain ⟨⟨test, hk⟩, -, -, hrest⟩ := hT
    have hblocks : (f.stm s).kind.blocks = [t, e] := by rw [hk]; rfl
    simp only [Stms.blocks] at hnodup
    obtain ⟨-, hnodup, -⟩ := List.nodup_append.1 hnodup
    obtain ⟨ht, hnodup⟩ := List.nodup_cons.1 hnodup
    obtain ⟨-, hnodup', -⟩ := List.nodup_append.1 hnodup
    obtain ⟨he, hnodup'⟩ := List.nodup_cons.1 hnodup'
    rw [Stms.roots]
    rcases List.mem_cons.1 h with rfl | h
    · rw [List.find?_cons_of_pos (by simp [hblocks])]
    · rcases List.mem_cons.1 h with rfl | h
      · rw [List.find?_cons_of_pos (by simp [hblocks])]
      · have hmem := mem_blocks_of_mem_branches h
        have hne : br.2 ∉ (f.stm s).kind.blocks := by
          rw [hblocks]
          intro hbr
          rcases List.mem_pair.1 hbr with heq | heq
          · exact ht (List.mem_append_right _ (List.mem_cons_of_mem _ (heq ▸ hmem)))
          · exact he (heq ▸ hmem)
        rw [List.find?_cons_of_neg (by simpa using hne)]
        exact ih hrest hnodup' h
  | forLoop s c C rest _ ih =>
    obtain ⟨⟨init, test, incr, hk⟩, -, hrest⟩ := hT
    have hblocks : (f.stm s).kind.blocks = [c] := by rw [hk]; rfl
    simp only [Stms.blocks] at hnodup
    obtain ⟨-, hnodup, -⟩ := List.nodup_append.1 hnodup
    obtain ⟨hc, hnodup⟩ := List.nodup_cons.1 hnodup
    rw [Stms.roots]
    rcases List.mem_cons.1 h with rfl | h
    · rw [List.find?_cons_of_pos (by simp [hblocks])]
    · have hne : br.2 ∉ (f.stm s).kind.blocks := by
        rw [hblocks, List.mem_singleton]
        exact fun heq => hc (heq ▸ mem_blocks_of_mem_branches h)
      rw [List.find?_cons_of_neg (by simpa using hne)]
      exact ih hrest hnodup h

/-! ## The sub blocks of a function -/

variable {s : Process.State V F (Fin n)} {name : F} {body b : Fin n}

/-- **A block whose branches are all tracked** is one sub block, the whole of it. -/
theorem parted_ofState (hT : Filled f T) (hnodup : T.blocks.Nodup)
    (hstms : (f.block b).stms = T.roots) (htr : Transcribed stms T)
    (hlevels : s.scopeLevelsFinal name b = Process.branchBlocks stms)
    (hfound : b = body ∨ ∃ c, b ∈ s.scopeLevelsFinal name c) :
    Parted (FunctionDivergence.ofState f s name body) b T := by
  have hbranches : ((s.scopeLevelsFinal name b).filterMap fun c : Fin n =>
      (branchStatement f b c).map fun stm => (stm, c.val)) = branches T := by
    have hmap : (s.scopeLevelsFinal name b).map Fin.val = (branches T).map Prod.snd := by
      rw [hlevels, htr.map_branches]
    calc (s.scopeLevelsFinal name b).filterMap
          (fun c : Fin n => (branchStatement f b c).map fun stm => (stm, c.val))
        = ((s.scopeLevelsFinal name b).map Fin.val).filterMap
          (fun c => (branchStatement f b c).map fun stm => (stm, c)) := by
          rw [List.filterMap_map]
          rfl
      _ = (branches T).filterMap
          (fun br => (branchStatement f b br.2).map fun stm => (stm, br.2)) := by
          rw [hmap, List.filterMap_map]
          rfl
      _ = (branches T).filterMap some := by
          refine List.filterMap_congr fun br hbr => ?_
          rw [branchStatement, hstms, find_branch hT hnodup hbr]
          rfl
      _ = branches T := List.filterMap_some
  have hsub : (FunctionDivergence.ofState f s name body).blockToSubBlockFinal b =
      (SubBlock.ofBlock T.roots (decide (b ∈ s.subBlockDivFinal name)) (branches T)).toList := by
    rw [← hstms, ← hbranches]
    exact (dif_pos b.isLt).trans (if_pos hfound)
  cases hhead : T.roots.head? with
  | none =>
    have hnil := List.head?_eq_none_iff.1 hhead
    refine ⟨[], (Stms.eq_nil_of_roots hnil).symm, ?_⟩
    rw [hsub, hnil]
    exact .nil
  | some first =>
    obtain ⟨l, hl⟩ := List.head?_eq_some_iff.1 hhead
    obtain ⟨last, hlast⟩ : ∃ last, T.roots.getLast? = some last :=
      ⟨_, List.getLast?_eq_some_getLast (by rw [hl]; exact List.cons_ne_nil _ _)⟩
    have hone : (FunctionDivergence.ofState f s name body).blockToSubBlockFinal b =
        [⟨first, last, decide (b ∈ s.subBlockDivFinal name), branches T⟩] := by
      rw [hsub, SubBlock.ofBlock, hhead, hlast]
      rfl
    exact parted_single hone ⟨hhead, hlast, rfl⟩

/-- **The blocks in a list** whose branches are all tracked have their sub blocks. -/
theorem processed_ofState {levels : F → Fin n → List (Fin n)} (htr : Transcribed stms T)
    (hT : Filled f T) (hnodup : T.blocks.Nodup) (hfits : Process.fitsStms levels name stms)
    (hlevels : ∀ c ∈ Process.blocksIn stms, s.scopeLevelsFinal name c = levels name c)
    (hfound : ∀ c ∈ Process.branchBlocks stms, ∃ p, c ∈ s.scopeLevelsFinal name p) :
    Processed (FunctionDivergence.ofState f s name body) T := by
  induction htr with
  | nil => trivial
  | leaf s₀ hstm _ ih =>
    refine ih hT.2 hnodup hfits.2 (fun c hc => hlevels c (List.mem_append_right _ hc))
      fun c hc => hfound c (List.mem_append_right _ hc)
  | @ifElse _ t e _ _ _ _ _ _ _ _ s₀ htrT htrE _ ihT ihE ih =>
    obtain ⟨-, ⟨hTstms, -, hTfilled⟩, ⟨hEstms, -, hEfilled⟩, hrest⟩ := hT
    obtain ⟨⟨-, ⟨ht, -, hTfits⟩, he, -, hEfits⟩, hrestfits⟩ := hfits
    simp only [Stms.blocks] at hnodup
    obtain ⟨hTnodup, hnodup, -⟩ := List.nodup_append.1 hnodup
    obtain ⟨hEnodup, hnodup, -⟩ := List.nodup_append.1 (List.nodup_cons.1 hnodup).2
    have hrestnodup := (List.nodup_cons.1 hnodup).2
    have htlevels := hlevels t (by simp [Process.blocksIn, Process.Statement.blocks,
      Process.Block.blocks])
    have helevels := hlevels e (by simp [Process.blocksIn, Process.Statement.blocks,
      Process.Block.blocks])
    refine ⟨⟨parted_ofState hTfilled hTnodup hTstms htrT (htlevels.trans ht)
        (.inr (hfound t (by simp [Process.branchBlocks, Process.Statement.branchBlocks,
          Process.Block.block]))),
      ihT hTfilled hTnodup hTfits (fun c hc => hlevels c ?_) fun c hc => ⟨t, ?_⟩⟩,
      ⟨parted_ofState hEfilled hEnodup hEstms htrE (helevels.trans he)
        (.inr (hfound e (by simp [Process.branchBlocks, Process.Statement.branchBlocks,
          Process.Block.block]))),
      ihE hEfilled hEnodup hEfits (fun c hc => hlevels c ?_) fun c hc => ⟨e, ?_⟩⟩,
      ih hrest hrestnodup hrestfits (fun c hc => hlevels c (List.mem_append_right _ hc))
        fun c hc => hfound c (List.mem_append_right _ hc)⟩
    · simp [Process.blocksIn, Process.Statement.blocks, Process.Block.blocks, hc]
    · rwa [htlevels, ht]
    · simp [Process.blocksIn, Process.Statement.blocks, Process.Block.blocks, hc]
    · rwa [helevels, he]
  | @forLoop _ _ _ _ _ c _ _ _ _ _ s₀ htrC _ ihC ih =>
    obtain ⟨-, ⟨hCstms, -, hCfilled⟩, hrest⟩ := hT
    obtain ⟨⟨-, -, -, hc, -, hCfits⟩, hrestfits⟩ := hfits
    simp only [Stms.blocks] at hnodup
    obtain ⟨hCnodup, hnodup, -⟩ := List.nodup_append.1 hnodup
    have hrestnodup := (List.nodup_cons.1 hnodup).2
    have hclevels := hlevels c (by simp [Process.blocksIn, Process.Statement.blocks,
      Process.Block.blocks])
    refine ⟨⟨parted_ofState hCfilled hCnodup hCstms htrC (hclevels.trans hc)
        (.inr (hfound c (by simp [Process.branchBlocks, Process.Statement.branchBlocks,
          Process.Block.block]))),
      ihC hCfilled hCnodup hCfits (fun c' hc' => hlevels c' ?_) fun c' hc' => ⟨c, ?_⟩⟩,
      ih hrest hrestnodup hrestfits (fun c hc => hlevels c (List.mem_append_right _ hc))
        fun c hc => hfound c (List.mem_append_right _ hc)⟩
    · simp [Process.blocksIn, Process.Statement.blocks, Process.Block.blocks, hc']
    · rwa [hclevels, hc]

/-- **A function whose branches are all known** has the sub blocks its sections are
reported from, its body's among them. -/
theorem sections_ofState {levels : F → Fin n → List (Fin n)}
    {known : Set (F × Fin n × List (Fin n))} {localVars : List (V × Process.Expr V F (Fin n))}
    (h : Process.Tabled levels known b s)
    (hknown : Process.branchesOf levels name (Process.Block.mk body localVars stms).blocks ⊆ known)
    (hfits : (Process.Block.mk body localVars stms).Fits levels name)
    (htr : Transcribed stms T) (hbody : Body f body T) :
    Parted (FunctionDivergence.ofState f s name body) body T ∧
      Processed (FunctionDivergence.ofState f s name body) T := by
  have hlevels : ∀ c ∈ (Process.Block.mk body localVars stms).blocks,
      s.scopeLevelsFinal name c = levels name c := fun c hc =>
    h.scopeLevelsFinal (hknown ⟨rfl, hc, rfl⟩)
  have hfilled := hbody.spells.filled hbody.nonempty
  have hbodyLevels := (hlevels body List.mem_cons_self).trans hfits.1
  refine ⟨parted_ofState hfilled hbody.nodupBlocks hbody.stms htr hbodyLevels (.inl rfl),
    processed_ofState htr hfilled hbody.nodupBlocks hfits.2.2
      (fun c hc => hlevels c (List.mem_cons_of_mem _ hc)) fun c hc => ⟨body, ?_⟩⟩
  rwa [hbodyLevels]

variable [DecidableEq V] [DecidableEq F] [Fintype V] {d : Process.Variables V}
  {levels : F → Fin n → List (Fin n)}
  {localVars globalVariables : List (V × Process.Expr V F (Fin n))} {returnLevel : ℕ}

/-- **A function that was called** has its sub blocks from then on, whatever is
processed after it. -/
theorem sections_processWithContext {α : Type} {m : StateM (Process.State V F (Fin n)) α}
    {known : Set (F × Fin n × List (Fin n))} {param : List V} (caller : F) (parameters : List Bool)
    (hlevels : ∀ g c, (levels g c).Nodup)
    (hfits : (Process.Func.mk name returnLevel param (.mk body localVars stms)).Fits levels)
    (h : Process.Tabled levels known b s) (hm : Process.Keeps levels m)
    (htr : Transcribed stms T) (hbody : Body f body T) :
    let t := ((do
      let _ ← Process.processWithContext d caller
        (.mk name returnLevel param (.mk body localVars stms)) parameters
      m).run s).2
    Parted (FunctionDivergence.ofState f t name body) body T ∧
      Processed (FunctionDivergence.ofState f t name body) T := by
  have hcall : Triple _ (Process.processWithContext d caller _ parameters) _ :=
    Process.tabled_processWithContext hlevels caller _ hfits parameters known b
  have hend := (hcall.bind fun _ => hm _ b) s h
  exact sections_ofState hend Set.subset_union_left hfits htr hbody

/-- **The barriers of the entry function** are placed outside divergent code: the
sections are those its processing leaves. -/
theorem generateBarriers_processEntryFunction {k m : ℕ} (hlevels : ∀ g c, (levels g c).Nodup)
    (hglobals : Process.fitsVars levels globalVariables)
    (hfits : (Process.Func.mk name returnLevel [] (.mk body localVars stms)).Fits levels)
    (htr : Transcribed stms T) (hbody : Body f body T) (hm : T.depth < m)
    (hk : T.preorder.length < k) (barrier : ℕ) :
    let div := FunctionDivergence.ofState f ((Process.processEntryFunction d globalVariables
      (.mk name returnLevel [] (.mk body localVars stms))).run (.start body)).2 name body
    (generateBarriers f k (div.getDivergentCodeSectionsForBlock m body) barrier = some f ∧
        ∀ st, ¬Qualifies f T.preorder (div.getDivergentCodeSectionsForBlock m body) st) ∨
      ∃ b st l l', generateBarriers f k (div.getDivergentCodeSectionsForBlock m body) barrier =
          some (setStms f b (l ++ barrier :: st :: l') barrier) ∧
        (f.block b).stms = l ++ st :: l' ∧ (f.stm st).parent = b ∧
        Qualifies f T.preorder (div.getDivergentCodeSectionsForBlock m body) st := by
  have hend := Process.tabled_processEntryFunction (d := d) hlevels hglobals hfits body
  obtain ⟨hparted, hprocessed⟩ :=
    sections_ofState hend Set.subset_union_left hfits htr hbody
  exact generateBarriers_of_done rfl hbody hparted hprocessed hm hk barrier

/-- `for (a = 0; get_linear_global_id(); a = 0) { a = 0; }`. -/
def groupLoop : Func Unit where
  block
    | 0 => ⟨none, .body, false, [], [0]⟩
    | _ => ⟨some 0, .loop, false, [], [1]⟩
  stm
    | 0 => ⟨0, .forLoop id (fun _ => true) id 1, []⟩
    | _ => ⟨1, .simple id, []⟩

/-- The body is a divergent section, the function is not. -/
example : (FunctionDivergence.ofState groupLoop ((Process.processEntryFunction
    (⟨fun _ => true, fun _ => false, fun _ => 0⟩ : Process.Variables Unit) [((), .constant)]
    (.mk () 0 [] (.mk 0 [] [.for ⟨(), 0⟩ .constant (.cl true) ⟨(), 0⟩ .constant
      (.mk 1 [] [.assign ⟨(), 0⟩ .constant])]))).run (.start (0 : Fin 2))).2 ()
        0).getDivergentCodeSectionsForBlock 2 0 = [(1, 1)] := by
  decide

end

end Divergence

end CLSmith
