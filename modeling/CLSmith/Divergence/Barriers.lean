import CLSmith.Walker.AtStatement
import Mathlib.Data.List.Infix
/-!
# Barriers outside divergent code

`GenerateBarriers` asks for the divergent sections of a function, goes with
`Next` past the end of one after the other, and puts one barrier before the
statement it comes to, unless that begins the next section. The sections are
parts of blocks, reported in the order of the text; `Next` from the end of
one comes to the first statement after it, wherever that stands.
-/

namespace CLSmith

namespace Divergence

open Generate Common Walker

variable {M : Type}

/-- **`SubBlock`**: a part of a block, whether it is divergent, and its
branches, each with its statement. -/
structure SubBlock where
  beginStatement : ℕ
  endStatement : ℕ
  divFinal : Bool
  scopeLevelsFinal : List (ℕ × ℕ)

/-- `FunctionDivergence` when processing is through: the sub blocks of each
block, one linked to the next. -/
structure FunctionDivergence where
  done : Bool
  blockToSubBlockFinal : ℕ → List SubBlock

/-- **`GetDivergentCodeSectionsForBlock`**. A divergent sub block is one section; of
the others, the branches are asked for theirs, in the order they were tracked. -/
def FunctionDivergence.getDivergentCodeSectionsForBlock (d : FunctionDivergence) :
    ℕ → ℕ → List (ℕ × ℕ)
  | 0, _ => []
  | n + 1, block =>
    if d.done then
      (d.blockToSubBlockFinal block).flatMap fun subBlock =>
        if subBlock.divFinal then [(subBlock.beginStatement, subBlock.endStatement)]
        else subBlock.scopeLevelsFinal.flatMap fun branch =>
          d.getDivergentCodeSectionsForBlock n branch.2
    else []

variable (f : Func M)

/-- The loop of `GenerateBarriers`: the block and the statement the barrier
goes before, if there is to be one. -/
def insertionPoint (n : ℕ) : List (ℕ × ℕ) → Option (Option (ℕ × ℕ))
  | [] => some none
  | sec :: secs => do
    let pos ← FunctionWalker.createFunctionWalkerAtStatement f n sec.2
    let (pos, more) ← pos.next f
    if more then do
      let st ← pos.blockWalker.statement
      if secs.head?.map Prod.fst = some st then insertionPoint n secs
      else some (some (pos.blockWalker.block, st))
    else some none

/-- `std::find` and `insert`. -/
def insertBefore (st barrier : ℕ) : List ℕ → Option (List ℕ)
  | [] => none
  | s :: l => if s = st then some (barrier :: s :: l) else (insertBefore st barrier l).map (s :: ·)

/-- The function with the statements `stms` in a block, one of them the
barrier. -/
def setStms (block : ℕ) (stms : List ℕ) (barrier : ℕ) : Func M :=
  { f with
    block := Function.update f.block block { f.block block with stms := stms }
    stm := Function.update f.stm barrier ⟨block, .simple id, []⟩ }

/-- **`GenerateBarriers`** of one function, with the sections reported for it. At most
one barrier is placed, as the loop over the sections ends with the first that can take
one. -/
def generateBarriers (n : ℕ) (divergentSections : List (ℕ × ℕ)) (barrier : ℕ) :
    Option (Func M) := do
  match ← insertionPoint f n divergentSections with
  | none => some f
  | some (block, st) =>
    let stms ← insertBefore st barrier (f.block block).stms
    some (setStms f block stms barrier)

/-! ## What is in a section -/

/-- **A statement is in another**, or it is that: in one of its blocks, or in a block
of what is there. -/
inductive Within (r : ℕ) : ℕ → Prop
  | refl : Within r r
  | branch {s c s' : ℕ} : Within r s → c ∈ (f.stm s).kind.blocks → s' ∈ (f.block c).stms →
      Within r s'

/-- A list up to its first `e`. -/
def upTo (e : ℕ) : List ℕ → List ℕ
  | [] => []
  | s :: l => if s = e then [s] else s :: upTo e l

/-- The statements of a section, in the block it is part of. -/
def sectionStms (sec : ℕ × ℕ) : List ℕ :=
  upTo sec.2 ((f.block (f.stm sec.1).parent).stms.dropWhile fun s => decide (s ≠ sec.1))

/-- **A statement is inside a section**: in one of the statements from its first to
its last, which stand in one block. -/
def Inside (sec : ℕ × ℕ) (s : ℕ) : Prop := ∃ r ∈ sectionStms f sec, Within f r s

/-- **A statement of a text qualifies**: right before it a section ends, and
it is inside none. -/
def Qualifies (text : List ℕ) (secs : List (ℕ × ℕ)) (st : ℕ) : Prop :=
  ∃ l s l', text = l ++ s :: st :: l' ∧ (∃ sec ∈ secs, Inside f sec s) ∧
    ∀ sec ∈ secs, ¬Inside f sec st

/-! ## What processing leaves -/

/-- The branches of the statements of a list. -/
def branches : Stms ℕ ℕ → List (ℕ × ℕ)
  | .nil => []
  | .leaf _ rest => branches rest
  | .ifElse s t e _ _ rest => (s, t) :: (s, e) :: branches rest
  | .forLoop s b _ rest => (s, b) :: branches rest

/-- A sub block is this part of a block: it begins and ends with the statements the
part does, and its final scope levels are the part's branches. -/
structure IsPart (sb : SubBlock) (P : Stms ℕ ℕ) : Prop where
  begin_eq : P.roots.head? = some sb.beginStatement
  end_eq : P.roots.getLast? = some sb.endStatement
  scopeLevels : sb.scopeLevelsFinal = branches P

/-- **The sub blocks of a block** are parts of its list, one after the other. Together
they are the whole of it, so a statement is in the inside of one of them only. -/
def Parted (d : FunctionDivergence) (b : ℕ) (T : Stms ℕ ℕ) : Prop :=
  ∃ parts : List (Stms ℕ ℕ), parts.foldr (· ++ ·) .nil = T ∧
    List.Forall₂ IsPart (d.blockToSubBlockFinal b) parts

/-- All blocks in a list have their sub blocks. -/
def Processed (d : FunctionDivergence) : Stms ℕ ℕ → Prop
  | .nil => True
  | .leaf _ rest => Processed d rest
  | .ifElse _ t e T E rest =>
    (Parted d t T ∧ Processed d T) ∧ (Parted d e E ∧ Processed d E) ∧ Processed d rest
  | .forLoop _ b B rest => (Parted d b B ∧ Processed d B) ∧ Processed d rest

/-! ## The statements of a section -/

section Inside

variable {f} {T P R : Stms ℕ ℕ} {b s r c : ℕ} {before : List ℕ}

theorem Within.trans {s' : ℕ} (h : Within f r s) (h' : Within f s s') : Within f r s' := by
  induction h' with
  | refl => exact h
  | branch _ hc hs ih => exact .branch ih hc hs

/-- The statements of a list hold those in their blocks. -/
theorem mem_preorder_branch (hT : Filled f T) (hs : s ∈ T.preorder)
    (hc : c ∈ (f.stm s).kind.blocks) {s' : ℕ} (hs' : s' ∈ (f.block c).stms) : s' ∈ T.preorder := by
  induction T with
  | nil => exact absurd hs List.not_mem_nil
  | leaf s₀ rest ih =>
    obtain ⟨hk, hrest⟩ := hT
    rcases List.mem_cons.mp hs with rfl | hs
    · rw [hk] at hc
      exact absurd hc List.not_mem_nil
    · exact List.mem_cons_of_mem _ (ih hrest hs)
  | ifElse s₀ t e T E rest ihT ihE ih =>
    obtain ⟨⟨test, hk⟩, ⟨hTstms, -, hT⟩, ⟨hEstms, -, hE⟩, hrest⟩ := hT
    simp only [Stms.preorder, List.mem_cons, List.mem_append] at hs ⊢
    rcases hs with rfl | (hs | hs) | hs
    · rw [hk] at hc
      rcases List.mem_pair.mp hc with rfl | rfl
      · rw [hTstms] at hs'
        exact .inr (.inl (.inl (Stms.mem_preorder_of_mem_roots hs')))
      · rw [hEstms] at hs'
        exact .inr (.inl (.inr (Stms.mem_preorder_of_mem_roots hs')))
    · exact .inr (.inl (.inl (ihT hT hs)))
    · exact .inr (.inl (.inr (ihE hE hs)))
    · exact .inr (.inr (ih hrest hs))
  | forLoop s₀ b₀ B rest ihB ih =>
    obtain ⟨⟨init, test, incr, hk⟩, ⟨hBstms, -, hB⟩, hrest⟩ := hT
    simp only [Stms.preorder, List.mem_cons, List.mem_append] at hs ⊢
    rcases hs with rfl | hs | hs
    · rw [hk] at hc
      rw [List.mem_singleton.mp hc, hBstms] at hs'
      exact .inr (.inl (Stms.mem_preorder_of_mem_roots hs'))
    · exact .inr (.inl (ihB hB hs))
    · exact .inr (.inr (ih hrest hs))

/-- **What is within the statements of a list**: the text of the list. -/
theorem exists_within (hT : Filled f T) : (∃ r ∈ T.roots, Within f r s) ↔ s ∈ T.preorder := by
  constructor
  · rintro ⟨r, hr, hs⟩
    -- over the way to the statement; the converse goes over the text
    induction hs with
    | refl => exact Stms.mem_preorder_of_mem_roots hr
    | branch _ hc hs' ih => exact mem_preorder_branch hT ih hc hs'
  · intro hs
    induction T with
    | nil => exact absurd hs List.not_mem_nil
    | leaf s₀ rest ih =>
      rcases List.mem_cons.mp hs with rfl | hs
      · exact ⟨s, List.mem_cons_self, .refl⟩
      · obtain ⟨r, hr, hw⟩ := ih hT.2 hs
        exact ⟨r, List.mem_cons_of_mem _ hr, hw⟩
    | ifElse s₀ t e T E rest ihT ihE ih =>
      obtain ⟨⟨test, hk⟩, ⟨hTstms, -, hT⟩, ⟨hEstms, -, hE⟩, hrest⟩ := hT
      simp only [Stms.preorder, List.mem_cons, List.mem_append] at hs
      rcases hs with rfl | (hs | hs) | hs
      · exact ⟨s, List.mem_cons_self, .refl⟩
      · obtain ⟨r, hr, hw⟩ := ihT hT hs
        refine ⟨s₀, List.mem_cons_self, Within.trans (.branch (c := t) .refl ?_ ?_) hw⟩
        · rw [hk]
          exact List.mem_cons_self
        · rwa [hTstms]
      · obtain ⟨r, hr, hw⟩ := ihE hE hs
        refine ⟨s₀, List.mem_cons_self, Within.trans (.branch (c := e) .refl ?_ ?_) hw⟩
        · rw [hk]
          exact List.mem_cons_of_mem _ List.mem_cons_self
        · rwa [hEstms]
      · obtain ⟨r, hr, hw⟩ := ih hrest hs
        exact ⟨r, List.mem_cons_of_mem _ hr, hw⟩
    | forLoop s₀ b₀ B rest ihB ih =>
      obtain ⟨⟨init, test, incr, hk⟩, ⟨hBstms, -, hB⟩, hrest⟩ := hT
      simp only [Stms.preorder, List.mem_cons, List.mem_append] at hs
      rcases hs with rfl | hs | hs
      · exact ⟨s, List.mem_cons_self, .refl⟩
      · obtain ⟨r, hr, hw⟩ := ihB hB hs
        refine ⟨s₀, List.mem_cons_self, Within.trans (.branch (c := b₀) .refl ?_ ?_) hw⟩
        · rw [hk]
          exact List.mem_cons_self
        · rwa [hBstms]
      · obtain ⟨r, hr, hw⟩ := ih hrest hs
        exact ⟨r, List.mem_cons_of_mem _ hr, hw⟩

theorem upTo_append {e : ℕ} {l : List ℕ} (he : e ∉ l) (l' : List ℕ) :
    upTo e (l ++ e :: l') = l ++ [e] := by
  induction l with
  | nil => simp [upTo]
  | cons s l ih =>
    obtain ⟨hne, he⟩ := List.ne_and_not_mem_of_not_mem_cons he
    rw [List.cons_append, upTo, if_neg (Ne.symm hne), ih he, List.cons_append]

/-- **The inside of a sub block** is the text of its part. -/
theorem inside_iff {sb : SubBlock} (hP : IsPart sb P) (hfilled : Filled f P)
    (hparent : ∀ s ∈ P.roots, (f.stm s).parent = b)
    (hstms : (f.block b).stms = before ++ (P.roots ++ R.roots))
    (hnodup : (f.block b).stms.Nodup) :
    Inside f (sb.beginStatement, sb.endStatement) s ↔ s ∈ P.preorder := by
  obtain ⟨l, hl⟩ := List.head?_eq_some_iff.mp hP.begin_eq
  obtain ⟨l', hl'⟩ := List.getLast?_eq_some_iff.mp hP.end_eq
  have hb : (f.stm sb.beginStatement).parent = b :=
    hparent _ (by rw [hl]; exact List.mem_cons_self)
  rw [hstms] at hnodup
  have hbegin : sb.beginStatement ∉ before := by
    intro hmem
    refine List.disjoint_of_nodup_append hnodup hmem ?_
    rw [hl]
    exact List.mem_append_left _ List.mem_cons_self
  have hend : sb.endStatement ∉ l' := by
    have hn := (List.nodup_append.mp (List.nodup_append.mp hnodup).2.1).1
    rw [hl'] at hn
    intro hmem
    exact List.disjoint_of_nodup_append hn hmem List.mem_cons_self
  have hsection : sectionStms f (sb.beginStatement, sb.endStatement) = P.roots := by
    rw [sectionStms, hb, hstms, List.dropWhile_append_of_pos]
    · rw [hl, List.cons_append, List.dropWhile_cons_of_neg (by simp), ← List.cons_append, ← hl,
        hl', List.append_assoc, List.singleton_append, upTo_append hend]
    · intro s' hs'
      exact decide_eq_true fun heq : s' = sb.beginStatement => hbegin (heq ▸ hs')
  rw [Inside, hsection]
  exact exists_within hfilled

end Inside

/-! ## The sections in the order of the text -/

/-- **Sections reported over a text**: each is a piece of it, and past its
last statement the text goes on after the piece. -/
inductive Report : List (ℕ × ℕ) → List (Stms.Cursor ℕ ℕ) → Prop
  | nil (L : List (Stms.Cursor ℕ ℕ)) : Report [] L
  | outside {secs : List (ℕ × ℕ)} {L : List (Stms.Cursor ℕ ℕ)} (A : Stms.Cursor ℕ ℕ) :
      Report secs L → Report secs (A :: L)
  | sec {sec : ℕ × ℕ} {secs : List (ℕ × ℕ)} {S L : List (Stms.Cursor ℕ ℕ)}
      {C : Stms.Cursor ℕ ℕ} : (S.map Stms.Cursor.statement).head? = some sec.1 → C ∈ S →
      C.statement = sec.2 → C.beyond = L →
      (∀ s, Inside f sec s ↔ s ∈ S.map Stms.Cursor.statement) → Report secs L →
      Report (sec :: secs) (S ++ L)

section Report

variable {f} {d : FunctionDivergence} {T P R : Stms ℕ ℕ} {b n : ℕ} {secs : List (ℕ × ℕ)}
  {outer : List (Stms.Frame ℕ ℕ)}

/-- The cursors of a part, and the one at its last statement. -/
theorem part_cursors (P R : Stms ℕ ℕ) (outer : List (Stms.Frame ℕ ℕ)) (b : ℕ) :
    ∃ S, (P ++ R).cursors outer b = S ++ R.cursors outer b ∧
      S.map Stms.Cursor.statement = P.preorder ∧
      ∀ e, P.roots.getLast? = some e → ∃ C ∈ S, C.statement = e ∧
        C.beyond = R.cursors outer b ++ Stms.aheadAll outer := by
  -- a last statement is in the rest of the list, or is the first
  have hlast : ∀ {s e : ℕ} {rest : Stms ℕ ℕ}, (s :: rest.roots).getLast? = some e →
      rest.roots.getLast? = some e ∨ s = e ∧ rest = .nil := by
    intro s e rest he
    rw [List.getLast?_cons] at he
    cases hr : rest.roots.getLast? with
    | none =>
      rw [hr] at he
      exact .inr ⟨Option.some_injective _ he,
        Stms.eq_nil_of_roots (List.getLast?_eq_none_iff.mp hr)⟩
    | some e' =>
      rw [hr] at he
      exact .inl he
  induction P with
  | nil => exact ⟨[], rfl, rfl, fun e he => by cases he⟩
  | leaf s rest ih =>
    obtain ⟨S, hS, hmap, hend⟩ := ih
    refine ⟨⟨⟨b, s, [], rest ++ R⟩, outer⟩ :: S, ?_, ?_, ?_⟩
    · rw [Stms.leaf_append, Stms.cursors, hS, List.cons_append]
    · rw [List.map_cons, hmap, Stms.preorder, Stms.Cursor.statement]
    · intro e he
      rcases hlast he with he | ⟨rfl, rfl⟩
      · obtain ⟨C, hC, hCe, hbeyond⟩ := hend e he
        exact ⟨C, List.mem_cons_of_mem _ hC, hCe, hbeyond⟩
      · exact ⟨_, List.mem_cons_self, rfl, rfl⟩
  | ifElse s t e T E rest _ _ ih =>
    obtain ⟨S, hS, hmap, hend⟩ := ih
    refine ⟨⟨⟨b, s, [(t, T), (e, E)], rest ++ R⟩, outer⟩ ::
      (T.cursors (⟨b, s, [(e, E)], rest ++ R⟩ :: outer) t ++
        (E.cursors (⟨b, s, [], rest ++ R⟩ :: outer) e ++ S)), ?_, ?_, ?_⟩
    · rw [Stms.ifElse_append, Stms.cursors, hS]
      simp only [List.cons_append, List.append_assoc]
    · rw [List.map_cons, List.map_append, List.map_append, hmap, Stms.map_statement_cursors,
        Stms.map_statement_cursors, Stms.preorder, Stms.Cursor.statement, List.append_assoc]
    · intro e' he
      rcases hlast he with he | ⟨rfl, rfl⟩
      · obtain ⟨C, hC, hCe, hbeyond⟩ := hend e' he
        exact ⟨C, List.mem_cons_of_mem _ (List.mem_append_right _ (List.mem_append_right _ hC)),
          hCe, hbeyond⟩
      · exact ⟨_, List.mem_cons_self, rfl, rfl⟩
  | forLoop s c B rest _ ih =>
    obtain ⟨S, hS, hmap, hend⟩ := ih
    refine ⟨⟨⟨b, s, [(c, B)], rest ++ R⟩, outer⟩ ::
      (B.cursors (⟨b, s, [], rest ++ R⟩ :: outer) c ++ S), ?_, ?_, ?_⟩
    · rw [Stms.forLoop_append, Stms.cursors, hS]
      simp only [List.cons_append, List.append_assoc]
    · rw [List.map_cons, List.map_append, hmap, Stms.map_statement_cursors, Stms.preorder,
        Stms.Cursor.statement]
    · intro e' he
      rcases hlast he with he | ⟨rfl, rfl⟩
      · obtain ⟨C, hC, hCe, hbeyond⟩ := hend e' he
        exact ⟨C, List.mem_cons_of_mem _ (List.mem_append_right _ hC), hCe, hbeyond⟩
      · exact ⟨_, List.mem_cons_self, rfl, rfl⟩

/-- What a list of a block is known to be: filled as the tables say, rooted in the
block, without a statement twice and processed. -/
structure Text (f : Func M) (d : FunctionDivergence) (b : ℕ) (T : Stms ℕ ℕ) : Prop where
  filled : Filled f T
  rooted : Rooted f b T
  nodup : T.preorder.Nodup
  processed : Processed d T

theorem Text.append (h : Text f d b (P ++ R)) : Text f d b P ∧ Text f d b R := by
  obtain ⟨hfilled, hrooted, hnodup, hprocessed⟩ := h
  rw [Stms.preorder_append] at hnodup
  have hn := List.nodup_append.mp hnodup
  have hsplit : (Filled f P ∧ Rooted f b P ∧ Processed d P) ∧
      Filled f R ∧ Rooted f b R ∧ Processed d R := by
    clear hnodup hn
    induction P with
    | nil => exact ⟨⟨trivial, trivial, trivial⟩, hfilled, hrooted, hprocessed⟩
    | leaf s rest ih =>
      obtain ⟨⟨h1, h2, h3⟩, hR⟩ := ih hfilled.2 hrooted.2 hprocessed
      exact ⟨⟨⟨hfilled.1, h1⟩, ⟨hrooted.1, h2⟩, h3⟩, hR⟩
    | ifElse s t e T E rest _ _ ih =>
      obtain ⟨hk, hT, hE, hfilled⟩ := hfilled
      obtain ⟨hp, hrT, hrE, hrooted⟩ := hrooted
      obtain ⟨hpT, hpE, hprocessed⟩ := hprocessed
      obtain ⟨⟨h1, h2, h3⟩, hR⟩ := ih hfilled hrooted hprocessed
      exact ⟨⟨⟨hk, hT, hE, h1⟩, ⟨hp, hrT, hrE, h2⟩, hpT, hpE, h3⟩, hR⟩
    | forLoop s c B rest _ ih =>
      obtain ⟨hk, hB, hfilled⟩ := hfilled
      obtain ⟨hp, hrB, hrooted⟩ := hrooted
      obtain ⟨hpB, hprocessed⟩ := hprocessed
      obtain ⟨⟨h1, h2, h3⟩, hR⟩ := ih hfilled hrooted hprocessed
      exact ⟨⟨⟨hk, hB, h1⟩, ⟨hp, hrB, h2⟩, hpB, h3⟩, hR⟩
  obtain ⟨⟨h1, h2, h3⟩, h1', h2', h3'⟩ := hsplit
  exact ⟨⟨h1, h2, hn.1, h3⟩, h1', h2', hn.2.1, h3'⟩

theorem Text.parent (h : Text f d b T) : ∀ s ∈ T.roots, (f.stm s).parent = b := by
  have hrooted := h.rooted
  clear h
  induction T with
  | nil => exact fun s hs => absurd hs List.not_mem_nil
  | leaf s rest ih => exact List.forall_mem_cons.mpr ⟨hrooted.1, ih hrooted.2⟩
  | ifElse s t e T E rest _ _ ih =>
    exact List.forall_mem_cons.mpr ⟨hrooted.1, ih hrooted.2.2.2⟩
  | forLoop s c B rest _ ih => exact List.forall_mem_cons.mpr ⟨hrooted.1, ih hrooted.2.2⟩

/-- A block whose sections are reported. -/
def Reported (f : Func M) (d : FunctionDivergence) (n b : ℕ) (T : Stms ℕ ℕ) : Prop :=
  ∀ outer secs, Report f secs (Stms.aheadAll outer) →
    Report f (d.getDivergentCodeSectionsForBlock n b ++ secs)
      (T.cursors outer b ++ Stms.aheadAll outer)

/-- A part that is not divergent: the sections are those of its branches. -/
theorem report_branches (hP : Text f d b P) (hdepth : P.depth ≤ n)
    (hblock : ∀ c T, T.depth < n → (f.block c).stms = T.roots → Text f d c T → Parted d c T →
      Reported f d n c T)
    (h : Report f secs (R.cursors outer b ++ Stms.aheadAll outer)) :
    Report f ((branches P).flatMap (fun br => d.getDivergentCodeSectionsForBlock n br.2) ++ secs)
      ((P ++ R).cursors outer b ++ Stms.aheadAll outer) := by
  obtain ⟨hfilled, hrooted, hnodup, hprocessed⟩ := hP
  induction P with
  | nil => exact h
  | leaf s rest ih =>
    exact .outside _ (ih hdepth hfilled.2 hrooted.2 (List.nodup_cons.mp hnodup).2 hprocessed)
  | ifElse s t e T E rest _ _ ih =>
    obtain ⟨-, ⟨hT, -, hTfilled⟩, ⟨hE, -, hEfilled⟩, hrest⟩ := hfilled
    obtain ⟨-, ⟨-, hTrooted⟩, ⟨-, hErooted⟩, hrestrooted⟩ := hrooted
    obtain ⟨⟨hTparted, hTprocessed⟩, ⟨hEparted, hEprocessed⟩, hrestprocessed⟩ := hprocessed
    obtain ⟨-, hnodup⟩ := List.nodup_cons.mp hnodup
    obtain ⟨hnodupTE, hrestnodup, -⟩ := List.nodup_append.mp hnodup
    obtain ⟨hTnodup, hEnodup, -⟩ := List.nodup_append.mp hnodupTE
    simp only [Stms.depth, max_le_iff] at hdepth
    have hrestReport := ih hdepth.2 hrest hrestrooted hrestnodup hrestprocessed
    have hEReport := hblock e E (by omega) hE ⟨hEfilled, hErooted, hEnodup, hEprocessed⟩ hEparted
      (⟨b, s, [], rest ++ R⟩ :: outer) _ hrestReport
    have hTReport := hblock t T (by omega) hT ⟨hTfilled, hTrooted, hTnodup, hTprocessed⟩ hTparted
      (⟨b, s, [(e, E)], rest ++ R⟩ :: outer) _
      (by rw [Stms.aheadAll_pending rfl]; exact hEReport)
    have hall := Report.outside ⟨⟨b, s, [(t, T), (e, E)], rest ++ R⟩, outer⟩ hTReport
    rw [Stms.aheadAll_pending rfl, Stms.aheadAll_nil rfl] at hall
    simpa only [branches, List.flatMap_cons, Stms.ifElse_append, Stms.cursors, List.append_assoc,
      List.cons_append] using hall
  | forLoop s c B rest _ ih =>
    obtain ⟨-, ⟨hB, -, hBfilled⟩, hrest⟩ := hfilled
    obtain ⟨-, ⟨-, hBrooted⟩, hrestrooted⟩ := hrooted
    obtain ⟨⟨hBparted, hBprocessed⟩, hrestprocessed⟩ := hprocessed
    obtain ⟨-, hnodup⟩ := List.nodup_cons.mp hnodup
    obtain ⟨hBnodup, hrestnodup, -⟩ := List.nodup_append.mp hnodup
    simp only [Stms.depth, max_le_iff] at hdepth
    have hrestReport := ih hdepth.2 hrest hrestrooted hrestnodup hrestprocessed
    have hBReport := hblock c B (by omega) hB ⟨hBfilled, hBrooted, hBnodup, hBprocessed⟩ hBparted
      (⟨b, s, [], rest ++ R⟩ :: outer) _ hrestReport
    have hall := Report.outside ⟨⟨b, s, [(c, B)], rest ++ R⟩, outer⟩ hBReport
    rw [Stms.aheadAll_nil rfl] at hall
    simpa only [branches, List.flatMap_cons, Stms.forLoop_append, Stms.cursors, List.append_assoc,
      List.cons_append] using hall

/-- A part of a block, and the parts after it. -/
theorem report_part {sb : SubBlock} {before : List ℕ} (hsb : IsPart sb P)
    (hstms : (f.block b).stms = before ++ (P ++ R).roots) (hnodup : (f.block b).stms.Nodup)
    (hP : Text f d b P) (hdepth : P.depth ≤ n)
    (hblock : ∀ c T, T.depth < n → (f.block c).stms = T.roots → Text f d c T → Parted d c T →
      Reported f d n c T)
    (h : Report f secs (R.cursors outer b ++ Stms.aheadAll outer)) :
    Report f ((if sb.divFinal then [(sb.beginStatement, sb.endStatement)]
        else sb.scopeLevelsFinal.flatMap fun br => d.getDivergentCodeSectionsForBlock n br.2) ++
          secs)
      ((P ++ R).cursors outer b ++ Stms.aheadAll outer) := by
  split
  · obtain ⟨S, hS, hmap, hend⟩ := part_cursors P R outer b
    obtain ⟨C, hC, hCe, hbeyond⟩ := hend _ hsb.end_eq
    rw [hS, List.append_assoc]
    refine .sec ?_ hC hCe hbeyond (fun s => ?_) h
    · have hhead : P.preorder.head? = P.roots.head? := by cases P <;> rfl
      rw [hmap, hhead, hsb.begin_eq]
    · rw [hmap]
      have hstms' : (f.block b).stms = before ++ (P.roots ++ R.roots) := by
        rw [hstms, Stms.roots_append]
      exact inside_iff hsb hP.filled hP.parent hstms' hnodup
  · rw [hsb.scopeLevels]
    exact report_branches hP hdepth hblock h

/-- **A block is reported**: its parts one after the other. -/
theorem reported (hd : d.done = true) (n b : ℕ) (T : Stms ℕ ℕ) (hdepth : T.depth < n)
    (hstms : (f.block b).stms = T.roots) (hT : Text f d b T) (hparted : Parted d b T) :
    Reported f d n b T := by
  induction n generalizing b T with
  | zero => exact absurd hdepth (Nat.not_lt_zero _)
  | succ n ih =>
    intro outer secs h
    obtain ⟨parts, rfl, hparts⟩ := hparted
    have hnodup : (f.block b).stms.Nodup := by
      rw [hstms]
      exact (Stms.roots_sublist _).nodup hT.nodup
    rw [FunctionDivergence.getDivergentCodeSectionsForBlock, if_pos hd]
    -- the parts from one on, with what is before them in the block
    generalize d.blockToSubBlockFinal b = sbs at hparts
    suffices hgo : ∀ before, (f.block b).stms = before ++ (parts.foldr (· ++ ·) Stms.nil).roots →
        Report f (sbs.flatMap (fun sb => if sb.divFinal then [(sb.beginStatement, sb.endStatement)]
            else sb.scopeLevelsFinal.flatMap fun br =>
              d.getDivergentCodeSectionsForBlock n br.2) ++ secs)
          ((parts.foldr (· ++ ·) Stms.nil).cursors outer b ++ Stms.aheadAll outer) from
      hgo [] hstms
    clear hstms
    induction hparts with
    | nil => exact fun _ _ => h
    | @cons sb P sbs parts hsb _ ihparts =>
      intro before hstms
      rw [List.foldr_cons] at hT hdepth hstms ⊢
      obtain ⟨hP, hR⟩ := hT.append
      rw [Stms.depth_append] at hdepth
      have hrest := ihparts (by omega) hR (before ++ P.roots) (by
        rw [hstms, Stms.roots_append, List.append_assoc])
      rw [List.flatMap_cons, List.append_assoc]
      exact report_part hsb hstms hnodup hP (by omega) (fun c T hc => ih c T hc) hrest

/-! ## The insertion point -/

variable {L : List (Stms.Cursor ℕ ℕ)} {A : Stms.Cursor ℕ ℕ} {s st : ℕ} {sec : ℕ × ℕ}

/-- The text of a list of cursors. -/
def text (L : List (Stms.Cursor ℕ ℕ)) : List ℕ := L.map Stms.Cursor.statement

theorem Report.mem_text (h : Report f secs L) (hsec : sec ∈ secs) (hs : Inside f sec s) :
    s ∈ text L := by
  induction h with
  | nil L => exact absurd hsec List.not_mem_nil
  | outside A _ ih => exact List.mem_cons_of_mem _ (ih hsec)
  | sec _ _ _ _ hinside _ ih =>
    rw [text, List.map_append]
    rcases List.mem_cons.mp hsec with rfl | hsec
    · exact List.mem_append_left _ ((hinside s).mp hs)
    · exact List.mem_append_right _ (ih hsec)

theorem Report.begin_inside {secs : List (ℕ × ℕ)} (h : Report f secs L) :
    ∀ sec ∈ secs, Inside f sec sec.1 := by
  induction h with
  | nil L => exact fun sec hsec => absurd hsec List.not_mem_nil
  | outside A _ ih => exact ih
  | sec hhead _ _ _ hinside _ ih =>
    refine List.forall_mem_cons.mpr ⟨(hinside _).mpr ?_, ih⟩
    exact List.mem_of_mem_head? hhead

/-- A section the first statement of a text is inside begins there, and is
the first. -/
theorem Report.head_begin (h : Report f secs (A :: L)) (hn : (text (A :: L)).Nodup)
    (hin : ∃ sec ∈ secs, Inside f sec A.statement) :
    secs.head?.map Prod.fst = some A.statement := by
  obtain ⟨sec, hsec, hin⟩ := hin
  generalize hAL : A :: L = L' at h
  cases h with
  | nil => exact absurd hsec List.not_mem_nil
  | outside B h =>
    obtain ⟨rfl, rfl⟩ := List.cons_eq_cons.mp hAL
    exact absurd (h.mem_text hsec hin) (List.nodup_cons.mp hn).1
  | @sec sec' secs S L' C hhead _ _ _ _ h =>
    cases S with
    | nil => cases hhead
    | cons B S =>
      rw [List.cons_append] at hAL
      obtain ⟨rfl, -⟩ := List.cons_eq_cons.mp hAL
      rw [List.map_cons, List.head?_cons] at hhead
      rw [List.head?_cons, Option.map_some, hhead]

/-- A statement that qualifies after a section does so with it. -/
theorem Qualifies.after {text text' : List ℕ} (hn : (text ++ text').Nodup)
    (hinside : ∀ s, Inside f sec s ↔ s ∈ text) (h : Qualifies f text' secs st) :
    Qualifies f (text ++ text') (sec :: secs) st := by
  obtain ⟨l, s, l', htext, ⟨sec', hsec', hs⟩, hout⟩ := h
  refine ⟨text ++ l, s, l', by rw [htext, List.append_assoc],
    ⟨sec', List.mem_cons_of_mem _ hsec', hs⟩, List.forall_mem_cons.mpr ⟨fun hin => ?_, hout⟩⟩
  refine List.disjoint_of_nodup_append hn ((hinside st).mp hin) ?_
  rw [htext]
  simp

/-- A statement that qualifies with a section does so after it, if the next
section begins where it ends. -/
theorem Qualifies.of_section {text text' : List ℕ} (hn : (text ++ text').Nodup)
    (hinside : ∀ s, Inside f sec s ↔ s ∈ text)
    (hnext : ∀ s l, text' = s :: l → ∃ sec ∈ secs, Inside f sec s)
    (h : Qualifies f (text ++ text') (sec :: secs) st) : Qualifies f text' secs st := by
  obtain ⟨l, s, l', htext, ⟨sec', hsec', hs⟩, hout⟩ := h
  have hst : st ∉ text := fun hmem => hout sec List.mem_cons_self ((hinside st).mpr hmem)
  have houts := fun sec' h => hout sec' (List.mem_cons_of_mem _ h)
  -- the section is a part of what is before the statement
  obtain ⟨a, ha, htext'⟩ : ∃ a, l ++ [s] = text ++ a ∧ text' = a ++ st :: l' := by
    rw [show l ++ s :: st :: l' = (l ++ [s]) ++ st :: l' by simp] at htext
    rcases List.append_eq_append_iff.mp htext with ⟨a, ha, ha'⟩ | ⟨c, hc, hc'⟩
    · exact ⟨a, ha, ha'⟩
    · cases c with
      | nil => exact ⟨[], by simpa using hc.symm, by simpa using hc'.symm⟩
      | cons x c =>
        obtain ⟨rfl, -⟩ := List.cons_eq_cons.mp hc'
        exact absurd (by rw [hc]; simp) hst
  rcases List.eq_nil_or_concat a with rfl | ⟨a, x, rfl⟩
  · obtain ⟨sec'', hsec'', hin⟩ := hnext st l' htext'
    exact absurd hin (houts sec'' hsec'')
  · rw [List.concat_eq_append, ← List.append_assoc] at ha
    obtain ⟨rfl, hx⟩ := List.append_inj' ha rfl
    obtain rfl : s = x := by simpa using hx
    have hs' : s ∈ text' := by
      rw [htext']
      simp
    rcases List.mem_cons.mp hsec' with rfl | hsec'
    · exact absurd hs' (List.disjoint_of_nodup_append hn ((hinside s).mp hs))
    · exact ⟨a, s, l', by rw [htext']; simp, ⟨sec', hsec', hs⟩, houts⟩

theorem nodup_text {body : ℕ} {before : List (Stms.Cursor ℕ ℕ)} (hbody : Body f body T)
    (hL : T.cursors [] body = before ++ L) : (text L).Nodup := by
  have hn := hbody.nodupStms
  rw [← T.map_statement_cursors [] body, hL, List.map_append] at hn
  exact (List.nodup_append.mp hn).2.1

/-- A statement before the sections changes nothing. -/
theorem qualifies_cons {s : ℕ} {l : List ℕ} (hs : ∀ sec ∈ secs, ¬Inside f sec s) :
    Qualifies f (s :: l) secs st ↔ Qualifies f l secs st := by
  constructor
  · rintro ⟨l₁, s', l', htext, ⟨sec, hsec, hin⟩, hout⟩
    cases l₁ with
    | nil =>
      obtain ⟨rfl, -⟩ := List.cons_eq_cons.mp htext
      exact absurd hin (hs sec hsec)
    | cons x l₁ =>
      obtain ⟨-, htext⟩ := List.cons_eq_cons.mp htext
      exact ⟨l₁, s', l', htext, ⟨sec, hsec, hin⟩, hout⟩
  · rintro ⟨l₁, s', l', rfl, hin, hout⟩
    exact ⟨s :: l₁, s', l', rfl, hin, hout⟩

/-- **`Next` past the end of a section**: at the end of the function, or at
the statement the text goes on with. -/
theorem next_section {body : ℕ} {C : Stms.Cursor ℕ ℕ} (hbody : Body f body T)
    (hn : T.preorder.length < n) (hC : C ∈ T.cursors [] body) :
    ∃ w w', FunctionWalker.createFunctionWalkerAtStatement f n C.statement = some w ∧
      w.next f = some (w', !C.beyond.isEmpty) ∧
      ∀ A l, C.beyond = A :: l →
        w'.blockWalker.statement = some A.statement ∧ w'.blockWalker.block = A.frame.block := by
  obtain ⟨w, hcreate, hplaced⟩ := hbody.placed hC hn
  obtain ⟨w', hnext, hplaced', -, -⟩ := next_follows hplaced
  have hreads := Stms.skip_reads hplaced.full.2
  refine ⟨w, w', hcreate, ?_, ?_⟩
  · rw [hnext]
    cases hb : C.beyond with
    | nil =>
      rw [hb] at hreads
      rw [show C.skip.dest = none from hreads]
      rfl
    | cons A l =>
      rw [hb] at hreads
      rw [hreads.1]
      rfl
  · intro A l hb
    rw [hb] at hreads
    rw [hreads.1] at hplaced'
    exact ⟨hplaced'.1.statement, hplaced'.1.block⟩

/-- **The insertion point** is a statement that qualifies, and there is one
if any does. -/
theorem insertionPoint_spec {body : ℕ} {before : List (Stms.Cursor ℕ ℕ)} (hbody : Body f body T)
    (hn : T.preorder.length < n) (hL : T.cursors [] body = before ++ L) (h : Report f secs L) :
    (insertionPoint f n secs = some none ∧ ∀ st, ¬Qualifies f (text L) secs st) ∨
      ∃ A ∈ L, insertionPoint f n secs = some (some (A.frame.block, A.statement)) ∧
        Qualifies f (text L) secs A.statement := by
  induction h generalizing before with
  | nil L =>
    refine .inl ⟨rfl, ?_⟩
    rintro st ⟨l, s, l', -, ⟨sec, hsec, -⟩, -⟩
    exact absurd hsec List.not_mem_nil
  | @outside secs L A h ih =>
    have hnodup := nodup_text hbody hL
    have hA : ∀ sec ∈ secs, ¬Inside f sec A.statement :=
      fun sec hsec hin => (List.nodup_cons.mp hnodup).1 (h.mem_text hsec hin)
    have hL' : T.cursors [] body = (before ++ [A]) ++ L := by rw [hL]; simp
    rcases ih hL' with ⟨hpoint, hnone⟩ |
      ⟨B, hB, hpoint, hqual⟩
    · exact .inl ⟨hpoint, fun st hst => hnone st ((qualifies_cons hA).mp hst)⟩
    · exact .inr ⟨B, List.mem_cons_of_mem _ hB, hpoint, (qualifies_cons hA).mpr hqual⟩
  | @sec sec secs S L C hhead hC hCe hbeyond hinside h ih =>
    have hnodup := nodup_text hbody hL
    rw [text, List.map_append] at hnodup
    obtain ⟨w, w', hcreate, hnext, hat⟩ := next_section hbody hn
      (by rw [hL]; exact List.mem_append_right _ (List.mem_append_left _ hC))
    rw [hCe] at hcreate
    rw [hbeyond] at hnext hat
    rw [insertionPoint, hcreate]
    simp only [Option.bind_eq_bind, Option.bind_some]
    rw [hnext]
    simp only [Option.bind_some]
    rw [text, List.map_append]
    cases L with
    | nil =>
      refine .inl ⟨rfl, ?_⟩
      rintro st ⟨l, s, l', htext, -, hout⟩
      refine hout sec List.mem_cons_self ((hinside st).mpr ?_)
      rw [List.map_nil, List.append_nil] at htext
      rw [htext]
      simp
    | cons A L =>
      obtain ⟨hst, hblock⟩ := hat A L rfl
      simp only [List.isEmpty_cons, Bool.not_false, if_true, hst, hblock, Option.bind_some]
      split
      · -- the next section begins here
        rename_i hbegin
        have hL' : T.cursors [] body = (before ++ S) ++ A :: L := by rw [hL, List.append_assoc]
        rcases ih hL' with ⟨hpoint, hnone⟩ |
          ⟨B, hB, hpoint, hqual⟩
        · refine .inl ⟨hpoint, fun st hst => hnone st (Qualifies.of_section hnodup hinside ?_ hst)⟩
          intro s l hs
          obtain ⟨sec', hsec', hsec'A⟩ := Option.map_eq_some_iff.mp hbegin
          obtain rfl : A.statement = s := (List.cons_eq_cons.mp hs).1
          exact ⟨sec', List.mem_of_mem_head? hsec', hsec'A ▸ h.begin_inside sec'
            (List.mem_of_mem_head? hsec')⟩
        · exact .inr ⟨B, List.mem_append_right _ hB, hpoint, hqual.after hnodup hinside⟩
      · rename_i hbegin
        refine .inr ⟨A, List.mem_append_right _ List.mem_cons_self, rfl, ?_⟩
        have hne : S.map Stms.Cursor.statement ≠ [] := by
          intro hnil
          rw [hnil] at hhead
          cases hhead
        have hA : A.statement ∉ S.map Stms.Cursor.statement := fun hmem =>
          List.disjoint_of_nodup_append hnodup hmem List.mem_cons_self
        refine ⟨(S.map Stms.Cursor.statement).dropLast, (S.map Stms.Cursor.statement).getLast hne,
          L.map Stms.Cursor.statement, ?_, ⟨sec, List.mem_cons_self, (hinside _).mpr
            (List.getLast_mem hne)⟩, List.forall_mem_cons.mpr
              ⟨fun hin => hA ((hinside _).mp hin), ?_⟩⟩
        · conv_lhs => rw [← List.dropLast_append_getLast hne]
          simp
        · intro sec' hsec' hin
          exact hbegin (h.head_begin (List.nodup_append.mp hnodup).2.1 ⟨sec', hsec', hin⟩)

theorem insertBefore_eq {st barrier : ℕ} {l : List ℕ} (hst : st ∉ l) (l' : List ℕ) :
    insertBefore st barrier (l ++ st :: l') = some (l ++ barrier :: st :: l') := by
  induction l with
  | nil => simp [insertBefore]
  | cons s l ih =>
    obtain ⟨hne, hst⟩ := List.ne_and_not_mem_of_not_mem_cons hst
    rw [List.cons_append, insertBefore, if_neg (Ne.symm hne), ih hst, Option.map_some,
      List.cons_append]

/-- The barrier of a function that was processed. -/
theorem generateBarriers_of_done {body m : ℕ} (hd : d.done = true) (hbody : Body f body T)
    (hparted : Parted d body T) (hprocessed : Processed d T) (hm : T.depth < m)
    (hn : T.preorder.length < n) (barrier : ℕ) :
    (generateBarriers f n (d.getDivergentCodeSectionsForBlock m body) barrier = some f ∧
        ∀ st, ¬Qualifies f T.preorder (d.getDivergentCodeSectionsForBlock m body) st) ∨
      ∃ b st l l', generateBarriers f n (d.getDivergentCodeSectionsForBlock m body) barrier =
          some (setStms f b (l ++ barrier :: st :: l') barrier) ∧
        (f.block b).stms = l ++ st :: l' ∧ (f.stm st).parent = b ∧
        Qualifies f T.preorder (d.getDivergentCodeSectionsForBlock m body) st := by
  have hfilled := hbody.spells.filled hbody.nonempty
  have htext : text (T.cursors [] body) = T.preorder := T.map_statement_cursors [] body
  have hreport := reported hd m body T hm hbody.stms
    ⟨hfilled, hbody.rooted, hbody.nodupStms, hprocessed⟩ hparted [] [] (.nil _)
  rw [List.append_nil, Stms.aheadAll, List.append_nil] at hreport
  have hall : T.cursors [] body = [] ++ T.cursors [] body := rfl
  rcases insertionPoint_spec hbody hn hall hreport with ⟨hpoint, hnone⟩ | ⟨A, hA, hpoint, hqual⟩
  · rw [htext] at hnone
    refine .inl ⟨?_, hnone⟩
    rw [generateBarriers, hpoint]
    rfl
  · rw [htext] at hqual
    have hroot : Around f body [] := hbody.root
    obtain ⟨hin, -, -⟩ := cursors_inTables (split_block hbody.stms) hfilled hbody.rooted
      hbody.nodupStms hbody.nodupBlocks hroot A hA
    obtain ⟨l, hl, hnot⟩ := hin.split
    refine .inr ⟨A.frame.block, A.statement, l, A.frame.rest.roots, ?_, hl, hin.parent, hqual⟩
    have hins : insertBefore A.statement barrier (f.block A.frame.block).stms =
        some (l ++ barrier :: A.statement :: A.frame.rest.roots) := by
      rw [hl]
      exact insertBefore_eq hnot _
    rw [generateBarriers, hpoint]
    simp only [Option.bind_eq_bind, Option.bind_some, hins]

/-- **Barriers are placed outside divergent code**: the function stays as it
is when no statement qualifies, and otherwise one barrier goes before one
that does, into the block of that. Of a function that was not processed
nothing is known, and no sections are reported. -/
theorem generateBarriers_spec {body m : ℕ}
    (hproc : d.done = true → Body f body T ∧ Parted d body T ∧ Processed d T)
    (hm : T.depth < m) (hn : T.preorder.length < n) (barrier : ℕ) :
    (generateBarriers f n (d.getDivergentCodeSectionsForBlock m body) barrier = some f ∧
        ∀ st, ¬Qualifies f T.preorder (d.getDivergentCodeSectionsForBlock m body) st) ∨
      ∃ b st l l', generateBarriers f n (d.getDivergentCodeSectionsForBlock m body) barrier =
          some (setStms f b (l ++ barrier :: st :: l') barrier) ∧
        (f.block b).stms = l ++ st :: l' ∧ (f.stm st).parent = b ∧
        Qualifies f T.preorder (d.getDivergentCodeSectionsForBlock m body) st := by
  by_cases hd : d.done = true
  · obtain ⟨hbody, hparted, hprocessed⟩ := hproc hd
    exact generateBarriers_of_done hd hbody hparted hprocessed hm hn barrier
  · have hnone : d.getDivergentCodeSectionsForBlock m body = [] := by
      cases m with
      | zero => rfl
      | succ m => rw [FunctionDivergence.getDivergentCodeSectionsForBlock, if_neg hd]
    rw [hnone]
    refine .inl ⟨rfl, ?_⟩
    rintro st ⟨l, s, l', -, ⟨sec, hsec, -⟩, -⟩
    exact absurd hsec List.not_mem_nil

/-- The loop of `nest` is one sub block, its else block a divergent one. -/
def nestDivergence : FunctionDivergence where
  done := true
  blockToSubBlockFinal
    | 0 => [⟨0, 4, false, [(0, 1)]⟩]
    | 1 => [⟨1, 1, false, [(1, 2), (1, 3)]⟩]
    | 2 => [⟨2, 2, false, []⟩]
    | 3 => [⟨3, 3, true, []⟩]
    | _ => []

/-- The statements of `nest`. -/
def nestStms : Stms ℕ ℕ :=
  .forLoop 0 1 (.ifElse 1 2 3 (.leaf 2 .nil) (.leaf 3 .nil) .nil) (.leaf 4 .nil)

theorem nest_body : Body FunctionWalker.nest 0 nestStms :=
  ⟨⟨⟨_, _, _, rfl⟩, rfl, ⟨.inl ⟨_, rfl⟩, rfl, rfl, ⟨rfl, trivial⟩, ⟨rfl, trivial⟩, trivial⟩,
    rfl, trivial⟩, by decide, rfl, by decide, by decide, rfl,
    ⟨rfl, ⟨rfl, rfl, ⟨rfl, rfl, trivial⟩, ⟨rfl, rfl, trivial⟩, trivial⟩, rfl, trivial⟩⟩

theorem parted_single {sb : SubBlock} {c : ℕ} (h : d.blockToSubBlockFinal c = [sb])
    (hsb : IsPart sb T) : Parted d c T :=
  ⟨[T], Stms.append_nil T, by rw [h]; exact .cons hsb .nil⟩

theorem generateBarriers_spec_nest :
    (generateBarriers FunctionWalker.nest 6 (nestDivergence.getDivergentCodeSectionsForBlock 3 0)
      5 =
        some FunctionWalker.nest ∧ ∀ st, ¬Qualifies FunctionWalker.nest nestStms.preorder
          (nestDivergence.getDivergentCodeSectionsForBlock 3 0) st) ∨
      ∃ b st l l', generateBarriers FunctionWalker.nest 6
          (nestDivergence.getDivergentCodeSectionsForBlock 3 0) 5 =
            some (setStms FunctionWalker.nest b (l ++ 5 :: st :: l') 5) ∧
        (FunctionWalker.nest.block b).stms = l ++ st :: l' ∧
        (FunctionWalker.nest.stm st).parent = b ∧ Qualifies FunctionWalker.nest nestStms.preorder
          (nestDivergence.getDivergentCodeSectionsForBlock 3 0) st :=
  generateBarriers_spec (fun _ => ⟨nest_body, parted_single rfl ⟨rfl, rfl, rfl⟩,
    ⟨⟨parted_single rfl ⟨rfl, rfl, rfl⟩, ⟨parted_single rfl ⟨rfl, rfl, rfl⟩, trivial⟩,
      ⟨parted_single rfl ⟨rfl, rfl, rfl⟩, trivial⟩, trivial⟩, trivial⟩⟩)
    (by decide) (by decide) 5

end Report

end Divergence

end CLSmith
