import CLSmith.Walker
/-!
# `Next`

`FunctionWalker::Next` goes past the branches of the statement the walker is
at. Both it and `Advance` follow a cursor in the statements of the function:
what they return and count is what the cursor does, so walkers at one cursor
cannot be told apart.
-/

namespace CLSmith

namespace Walker

open Generate Common

variable {M : Type} (f : Func M)

namespace FunctionWalker

/-- The loop of `Next`, over the stack. -/
def nextBlocks : List BlockWalker → FunctionWalker → Option (FunctionWalker × Bool)
  | [], w => some ({ w with nestedBlocks := [] }, false)
  | bw :: nested, w =>
    let w := { w with
      blockWalker := bw, nestedBlocks := nested, blocksExited := w.blocksExited + 1 }
    match bw.currentKind f, bw.elseBody with
    | none, _ => none
    | some (.ifElse _ _ _), some e =>
      if bw.ifBody.isSome then none
      else
        let w := w.enterBranch { bw with elseBody := none } e
        match w.blockWalker.advanceBlock f with
        | (bw, true) => some ({ w with blockWalker := bw }, true)
        | (_, false) => none
    | some _, _ =>
      match bw.advanceBlock f with
      | (bw, true) => some ({ w with blockWalker := bw }, true)
      | (bw, false) => nextBlocks nested { w with blockWalker := bw }

/-- **`Next`**; an assertion that does not hold is a failure. It is `Advance` without
the branches of the statement it is at. -/
def next (w : FunctionWalker) : Option (FunctionWalker × Bool) :=
  let w := { w with blocksEntered := 0, blocksExited := 0 }
  match w.blockWalker.statement with
  | none => w.advance f
  | some _ =>
    match w.blockWalker.advanceBlock f with
    | (bw, true) => some ({ w with blockWalker := bw }, true)
    | (bw, false) => nextBlocks f w.nestedBlocks { w with blockWalker := bw }

end FunctionWalker

/-- A walker on the stack: back from the branch it would enter first. -/
def Back (bw : BlockWalker) (fr : Stms.Frame ℕ ℕ) : Prop :=
  AtFrame f bw fr ∧ (bw.release f).2 = none

/-- **The walker is at a cursor**, or at no statement of `body`, past the end of it. -/
def Placed (body : ℕ) (w : FunctionWalker) : Option (Stms.Cursor ℕ ℕ) → Prop
  | none => w.blockWalker.statement = none ∧ w.blockWalker.block = body ∧ w.nestedBlocks = []
  | some A => AtFrame f w.blockWalker A.frame ∧
    (w.blockWalker.release f).2 = (w.blockWalker.branches f).head? ∧
    List.Forall₂ (Back f) w.nestedBlocks A.outer ∧ Stms.rootOf A.frame.block A.outer = body

/-- **A call does what the cursor does**: it comes to the same place, returns whether
there is one, and counts the blocks entered and left. -/
def Follows (body : ℕ) (m : Stms.Move ℕ ℕ) (r : Option (FunctionWalker × Bool)) : Prop :=
  ∃ w, r = some (w, m.dest.isSome) ∧ Placed f body w m.dest ∧ w.blocksEntered = m.entered ∧
    w.blocksExited = m.exited

variable {f} {body : ℕ} {bw : BlockWalker} {fr : Stms.Frame ℕ ℕ} {outer : List (Stms.Frame ℕ ℕ)}
  {ws : List BlockWalker} {U : Stms ℕ ℕ} {A : Stms.Cursor ℕ ℕ} {w : FunctionWalker}

theorem AtFrame.full (h : AtFrame f bw fr) : fr.Full :=
  fun q hq => (h.stands.filled q hq).2.1

theorem advanceBlock_false (h : bw.ahead f = U.roots) (hU : U = .nil) :
    ∃ bw', bw.advanceBlock f = (bw', false) ∧ bw'.statement = none ∧ bw'.block = bw.block := by
  subst hU
  refine ⟨{ bw with statement := none, blockIt := [] }, ?_, rfl, rfl⟩
  unfold BlockWalker.advanceBlock
  rw [h]
  rfl

@[simp] theorem release_statement : (bw.release f).1.statement = bw.statement := by
  unfold BlockWalker.release
  split <;> rfl

/-- The walker comes to the front of a list. -/
theorem follows_front {bw' : BlockWalker} {b entered exited : ℕ} (hat : AtFrame f bw' fr)
    (hfirst : (bw'.release f).2 = (bw'.branches f).head?)
    (houter : List.Forall₂ (Back f) w.nestedBlocks outer) (hfr : U.front b = some fr)
    (hroot : Stms.rootOf b outer = body) (hent : w.blocksEntered = entered)
    (hexit : w.blocksExited = exited) :
    Follows f body ⟨some ⟨fr, outer⟩, entered, exited⟩
      (some ({ w with blockWalker := bw' }, true)) :=
  ⟨_, rfl, ⟨hat, hfirst, houter, by rwa [Stms.front_block hfr]⟩, hent, hexit⟩

/-- A branch is entered. -/
theorem follows_enter (w : FunctionWalker) (body : ℕ) {q : ℕ × Stms ℕ ℕ}
    {pending : List (ℕ × Stms ℕ ℕ)} {exited : ℕ}
    (hq : (f.block q.1).stms = q.2.roots ∧ q.2.roots ≠ [] ∧ Filled f q.2)
    (hback : Back f bw { fr with pending := pending })
    (houter : List.Forall₂ (Back f) w.nestedBlocks outer)
    (hroot : Stms.rootOf fr.block outer = body) (hent : w.blocksEntered = 0)
    (hexit : w.blocksExited = exited) :
    ∃ bw', (w.enterBranch bw q.1).blockWalker.advanceBlock f = (bw', true) ∧
      Follows f body ⟨fr.enter outer q pending, 1, exited⟩
        (some ({ w.enterBranch bw q.1 with blockWalker := bw' }, true)) := by
  obtain ⟨hstms, hne, hfilled⟩ := hq
  obtain ⟨fr', hfr'⟩ : ∃ fr', q.2.front q.1 = some fr' := by
    refine Option.ne_none_iff_exists'.mp fun hnone => hne ?_
    rw [Stms.front_eq_none.mp hnone]
    rfl
  obtain ⟨bw', hadv, hat, hfirst⟩ :=
    advanceBlock_front (show (w.enterBranch bw q.1).blockWalker.ahead f = q.2.roots from hstms)
      hfilled hfr'
  refine ⟨bw', hadv, ?_⟩
  have henter : fr.enter outer q pending = some ⟨fr', { fr with pending := pending } :: outer⟩ := by
    rw [Stms.Frame.enter, hfr', Option.map_some]
  rw [henter]
  exact follows_front (w := w.enterBranch bw q.1) hat hfirst (.cons hback houter) hfr' hroot
    (congrArg (· + 1) hent) hexit

/-- At the end of the outermost block. -/
theorem follows_end (hst : w.blockWalker.statement = none) (hblock : w.blockWalker.block = body)
    (hent : w.blocksEntered = 0) :
    Follows f body ⟨none, 0, w.blocksExited⟩ (some ({ w with nestedBlocks := [] }, false)) :=
  ⟨_, rfl, ⟨hst, hblock, rfl⟩, hent, rfl⟩

/-- **What is left of a frame on the stack**: its else block, or the
statements after it. -/
theorem Back.cases (h : Back f bw fr) :
    (fr.pending = [] ∧ bw.mustEnterBranch f = some false ∧ bw.ahead f = fr.rest.roots ∧
        (∀ test t e, bw.currentKind f = some (.ifElse test t e) → bw.elseBody = none)) ∨
      ∃ q test t e, fr.pending = [q] ∧ bw.mustEnterBranch f = some true ∧
        bw.currentKind f = some (.ifElse test t e) ∧ bw.ifBody = none ∧ bw.elseBody = some q.1 ∧
        ((f.block q.1).stms = q.2.roots ∧ q.2.roots ≠ [] ∧ Filled f q.2) ∧
        Back f { bw with elseBody := none } { fr with pending := [] } := by
  obtain ⟨⟨hblock, hst, hstands⟩, hback⟩ := h
  have hmust := hstands.mustEnterBranch
  cases hp : fr.pending with
  | nil =>
    rw [hp] at hstands hmust
    refine .inl ⟨rfl, hmust, hstands.ahead, fun test t e hk => ?_⟩
    have hbr := hstands.branches
    rw [BlockWalker.branches, hk] at hbr
    exact Option.toList_eq_nil_iff.mp (List.append_eq_nil_iff.mp hbr).2
  | cons q pending =>
    rw [hp] at hstands hmust
    obtain ⟨rfl, ⟨test, t, e, hk⟩, hif, helse, hstands', hback'⟩ := hstands.elseBody hback
    exact .inr ⟨q, test, t, e, rfl, hmust, hk, hif, helse, hstands.filled q List.mem_cons_self,
      ⟨hblock, hst, hstands'⟩, hback'⟩

/-- `Next` back at a statement with no else block left. -/
theorem nextBlocks_on (w : FunctionWalker) {k : Kind M} (hk : bw.currentKind f = some k)
    (helse : ∀ test t e, bw.currentKind f = some (.ifElse test t e) → bw.elseBody = none) :
    FunctionWalker.nextBlocks f (bw :: ws) w =
      match bw.advanceBlock f with
      | (bw', true) => some ({ w with
          blockWalker := bw', nestedBlocks := ws, blocksExited := w.blocksExited + 1 }, true)
      | (bw', false) => FunctionWalker.nextBlocks f ws { w with
          blockWalker := bw', nestedBlocks := ws, blocksExited := w.blocksExited + 1 } := by
  rw [FunctionWalker.nextBlocks]
  split
  · rename_i hnone
    rw [hk] at hnone
    cases hnone
  · rename_i hif hsome
    rw [helse _ _ _ hif] at hsome
    cases hsome
  · rfl

/-- `Next` back at an if with its else block left. -/
theorem nextBlocks_else (w : FunctionWalker) {bw' : BlockWalker} {test : M → Bool} {t e b : ℕ}
    (hk : bw.currentKind f = some (.ifElse test t e)) (hif : bw.ifBody = none)
    (helse : bw.elseBody = some b)
    (hadv : BlockWalker.advanceBlock f { block := b } = (bw', true)) :
    FunctionWalker.nextBlocks f (bw :: ws) w =
      some ({ FunctionWalker.enterBranch { w with
          blockWalker := bw, nestedBlocks := ws, blocksExited := w.blocksExited + 1 }
          { bw with elseBody := none } b with blockWalker := bw' }, true) := by
  rw [FunctionWalker.nextBlocks]
  simp only [hk, helse, hif, Option.isSome_none, Bool.false_eq_true, if_false,
    FunctionWalker.enterBranch, hadv]

/-- **The stack at the end of a block**: `Advance` and `Next` leave it alike,
as the cursor does. -/
theorem exitBlocks_follows (h : List.Forall₂ (Back f) ws outer) (w : FunctionWalker) {exited : ℕ}
    (hent : w.blocksEntered = 0) (hexit : w.blocksExited = exited)
    (hst : w.blockWalker.statement = none)
    (hroot : Stms.rootOf w.blockWalker.block outer = body) :
    Follows f body (Stms.leave outer exited) (w.exitBlocks f ws) ∧
      Follows f body (Stms.leave outer exited) (FunctionWalker.nextBlocks f ws w) := by
  subst hexit
  induction h generalizing w with
  | nil => exact ⟨follows_end hst hroot hent, follows_end hst hroot hent⟩
  | @cons bw fr ws outer hback hnested ih =>
    let w₁ : FunctionWalker := { w with
      blockWalker := bw, nestedBlocks := ws, blocksExited := w.blocksExited + 1 }
    obtain ⟨k, hk⟩ : ∃ k, bw.currentKind f = some k := by
      rw [BlockWalker.currentKind, hback.1.statement]
      exact ⟨_, rfl⟩
    rcases hback.cases with ⟨hp, hmust, hahead, helse⟩ |
      ⟨q, test, t, e, hp, hmust, hkind, hif, helse, hq, hback'⟩
    · -- no branch is left: on in the block, or out of it too
      rw [nextBlocks_on w hk helse]
      unfold FunctionWalker.exitBlocks Stms.leave
      simp only [hmust, hp]
      cases hfr : fr.rest.front fr.block with
      | some fr' =>
        obtain ⟨bw', hadv, hat, hfirst⟩ := advanceBlock_front hahead hback.1.stands.filledRest
          (hback.1.block ▸ hfr)
        have hto := follows_front (w := w₁) hat hfirst hnested hfr hroot hent rfl
        rw [hadv]
        exact ⟨hto, hto⟩
      | none =>
        obtain ⟨bw', hadv, hst', hblock⟩ := advanceBlock_false hahead (Stms.front_eq_none.mp hfr)
        rw [hadv]
        exact ih { w₁ with blockWalker := bw' } hent hst'
          (by rw [show bw'.block = fr.block from hblock.trans hback.1.block]; exact hroot)
    · -- the else block
      have hleave : Stms.leave (fr :: outer) w.blocksExited =
          ⟨fr.enter outer q [], 1, w.blocksExited + 1⟩ := by
        rw [Stms.leave, hp]
      obtain ⟨bw', hadv, hto⟩ := follows_enter w₁ body hq hback' hnested hroot hent rfl
      rw [hleave, nextBlocks_else w hkind hif helse hadv]
      unfold FunctionWalker.exitBlocks
      simp only [hmust]
      rw [enterElse_eq (w := w₁) hkind hif helse hadv]
      exact ⟨hto, hto⟩

/-- **From a block** where the statements `U` are ahead. -/
theorem block_follows (w : FunctionWalker) (body : ℕ) (h : w.blockWalker.ahead f = U.roots)
    (hU : Filled f U)
    (houter : List.Forall₂ (Back f) w.nestedBlocks outer) (hent : w.blocksEntered = 0)
    (hexit : w.blocksExited = 0) (hroot : Stms.rootOf w.blockWalker.block outer = body) :
    (∃ bw, w.blockWalker.advanceBlock f = (bw, true) ∧
        Follows f body (Stms.onward w.blockWalker.block U outer)
          (some ({ w with blockWalker := bw }, true))) ∨
      ∃ bw, w.blockWalker.advanceBlock f = (bw, false) ∧
        Follows f body (Stms.onward w.blockWalker.block U outer)
          (FunctionWalker.exitBlocks f w.nestedBlocks { w with blockWalker := bw }) ∧
        Follows f body (Stms.onward w.blockWalker.block U outer)
          (FunctionWalker.nextBlocks f w.nestedBlocks { w with blockWalker := bw }) := by
  unfold Stms.onward
  cases hfr : U.front w.blockWalker.block with
  | some fr =>
    obtain ⟨bw', hadv, hat, hfirst⟩ := advanceBlock_front h hU hfr
    exact .inl ⟨bw', hadv, follows_front hat hfirst houter hfr hroot hent hexit⟩
  | none =>
    obtain ⟨bw', hadv, hst, hblock⟩ := advanceBlock_false h (Stms.front_eq_none.mp hfr)
    have hroot' : Stms.rootOf bw'.block outer = body := by
      rw [hblock]
      exact hroot
    have hleft := exitBlocks_follows houter { w with blockWalker := bw' } hent hexit hst hroot'
    exact .inr ⟨bw', hadv, hleft⟩

/-- **`Advance`** does what a step of the cursor does. -/
theorem advance_follows (h : Placed f body w (some A)) : Follows f body A.step (w.advance f) := by
  obtain ⟨hat, hfirst, houter, hroot⟩ := h
  unfold FunctionWalker.advance Stms.Cursor.step
  have hstands := hat.stands
  cases hp : A.frame.pending with
  | nil =>
    rw [hp] at hstands
    -- No block of the statement is left to enter: the walker goes on in the block it is in.
    obtain ⟨hnone, hblock, hahead⟩ := hstands.release_nil
    obtain ⟨bw, hbw⟩ : ∃ bw, w.blockWalker.release f = (bw, none) := ⟨_, Prod.ext rfl hnone⟩
    rw [hbw] at hblock hahead
    have hbwblock : bw.block = A.frame.block := hblock.trans hat.block
    have hgo := block_follows { w with
      blockWalker := bw, blocksEntered := 0, blocksExited := 0 } body hahead
      hstands.filledRest houter rfl rfl (by rw [hbwblock]; exact hroot)
    simp only [hbwblock] at hgo
    simp only [hbw]
    rcases hgo with ⟨bw', hadv, hto⟩ | ⟨bw', hadv, hto, -⟩
    · rw [hadv]
      exact hto
    · rw [hadv]
      exact hto
  | cons q pending =>
    rw [hp] at hstands
    -- A block is pending: it is taken off the list and entered.
    obtain ⟨bw, hbw, hblock, hstands', hback⟩ := hstands.release hfirst
    have hst : bw.statement = some A.frame.statement := by
      have hkept : (w.blockWalker.release f).1.statement = w.blockWalker.statement :=
        release_statement
      rw [← hat.statement, ← hkept, hbw]
    obtain ⟨bw', hadv, hto⟩ := follows_enter
      { w with blocksEntered := 0, blocksExited := 0 } body
      (hat.stands.filled q (hp ▸ List.mem_cons_self))
      (⟨⟨hblock.trans hat.block, hst, hstands'⟩, hback⟩ : Back f bw { A.frame with
        pending := pending }) houter hroot rfl rfl
    simp only [hbw]
    rw [hadv]
    exact hto

/-- **`Next`** does what a skip of the cursor does. -/
theorem next_follows (h : Placed f body w (some A)) : Follows f body A.skip (w.next f) := by
  obtain ⟨hat, -, houter, hroot⟩ := h
  unfold FunctionWalker.next Stms.Cursor.skip
  have hgo := block_follows { w with blocksEntered := 0, blocksExited := 0 } body
    hat.stands.ahead hat.stands.filledRest houter rfl rfl
    (by rw [show BlockWalker.block _ = A.frame.block from hat.block]; exact hroot)
  simp only [hat.block] at hgo
  simp only [hat.statement]
  rcases hgo with ⟨bw', hadv, hto⟩ | ⟨bw', hadv, -, hto⟩
  · rw [hadv]
    exact hto
  · rw [hadv]
    exact hto

/-- A walker at no statement begins at the first. -/
theorem start_follows {T : Stms ℕ ℕ} (hbody : (f.block body).stms = T.roots) (hT : Filled f T)
    (h : Placed f body w none) :
    Follows f body (Stms.onward body T []) (w.advance f) ∧
      Follows f body (Stms.onward body T []) (w.next f) := by
  obtain ⟨hst, hblock, hnested⟩ := h
  have hrel : w.blockWalker.release f = (w.blockWalker, none) := by
    simp only [BlockWalker.release, BlockWalker.currentKind, hst, Option.map_none]
  have hahead : w.blockWalker.ahead f = T.roots := by
    rw [BlockWalker.ahead, hst, hblock]
    exact hbody
  have hnone : List.Forall₂ (Back f) w.nestedBlocks [] := by
    rw [hnested]
    exact .nil
  have hgo := block_follows { w with blocksEntered := 0, blocksExited := 0 } body hahead hT hnone
    rfl rfl hblock
  simp only [hblock] at hgo
  have hadvance : Follows f body (Stms.onward body T []) (w.advance f) := by
    unfold FunctionWalker.advance
    simp only [hrel]
    rcases hgo with ⟨bw', hadv, hto⟩ | ⟨bw', hadv, hto, -⟩
    · rw [hadv]
      exact hto
    · rw [hadv]
      exact hto
  refine ⟨hadvance, ?_⟩
  unfold FunctionWalker.next
  simp only [hst]
  exact hadvance

/-! ## Calls one after the other -/

/-- The two calls that move a walker: to the next statement, into blocks or past them. -/
inductive Call
  | advance
  | next
deriving DecidableEq

/-- What a caller can see of a walker after a call: the value returned, the
current statement and the counts of branches. -/
structure View where
  returned : Bool
  statement : Option ℕ
  enteredBranch : ℕ
  exitedBranch : ℕ
deriving DecidableEq

namespace FunctionWalker

def call (f : Func M) : Call → FunctionWalker → Option (FunctionWalker × Bool)
  | .advance, w => w.advance f
  | .next, w => w.next f

/-- **The calls of a list**: what can be seen after each. Two walkers that give the
same views of all lists cannot be told apart. -/
def views (f : Func M) : List Call → FunctionWalker → Option (List View)
  | [], _ => some []
  | c :: cs, w => do
    let (w, returned) ← w.call f c
    let vs ← views f cs w
    return ⟨returned, w.blockWalker.statement, w.blocksEntered, w.blocksExited⟩ :: vs

end FunctionWalker

/-- **Two walkers at one cursor** give the same views, of any calls. -/
theorem views_eq {T : Stms ℕ ℕ} (hbody : (f.block body).stms = T.roots) (hT : Filled f T)
    (cs : List Call) {X : Option (Stms.Cursor ℕ ℕ)} {w' : FunctionWalker} (h : Placed f body w X)
    (h' : Placed f body w' X) :
    ∃ vs, FunctionWalker.views f cs w = some vs ∧ FunctionWalker.views f cs w' = some vs := by
  induction cs generalizing X w w' with
  | nil => exact ⟨[], rfl, rfl⟩
  | cons c cs ih =>
    obtain ⟨m, hm, hm'⟩ : ∃ m, Follows f body m (w.call f c) ∧ Follows f body m (w'.call f c) := by
      cases X with
      | none =>
        have hs := start_follows hbody hT h
        have hs' := start_follows hbody hT h'
        cases c with
        | advance => exact ⟨_, hs.1, hs'.1⟩
        | next => exact ⟨_, hs.2, hs'.2⟩
      | some A =>
        cases c with
        | advance => exact ⟨_, advance_follows h, advance_follows h'⟩
        | next => exact ⟨_, next_follows h, next_follows h'⟩
    obtain ⟨v, hv, hplaced, hent, hexit⟩ := hm
    obtain ⟨v', hv', hplaced', hent', hexit'⟩ := hm'
    -- Both walkers stand where the move leads, so they see the same statement.
    have hst : v.blockWalker.statement = v'.blockWalker.statement := by
      cases hd : m.dest with
      | none =>
        rw [hd] at hplaced hplaced'
        rw [hplaced.1, hplaced'.1]
      | some A =>
        rw [hd] at hplaced hplaced'
        rw [hplaced.1.statement, hplaced'.1.statement]
    obtain ⟨vs, hvs, hvs'⟩ := ih hplaced hplaced'
    refine ⟨⟨m.dest.isSome, v.blockWalker.statement, m.entered, m.exited⟩ :: vs, ?_, ?_⟩
    · rw [FunctionWalker.views, hv, ← hent, ← hexit]
      simp only [Option.bind_eq_bind, Option.bind_some, hvs]
      rfl
    · rw [FunctionWalker.views, hv', hst, ← hent', ← hexit']
      simp only [Option.bind_eq_bind, Option.bind_some, hvs']
      rfl

end Walker

end CLSmith
