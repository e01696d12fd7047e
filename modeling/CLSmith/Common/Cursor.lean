import CLSmith.Common.Tree
/-!
# A cursor in a list of statements

A place in structured code, with the lists around it. In each of these the
cursor has the blocks of a statement still to be entered and the statements
after it. `step` goes to the next statement of the text, `skip` to the next
one that is not in the statement it leaves; both count the blocks they enter
and leave.
-/

namespace CLSmith

namespace Common

namespace Stms

variable {α β : Type}

/-- **A list the cursor is in**: the block it belongs to, the statement the
cursor is at or in, the blocks of that still to be entered, and the
statements after it. -/
structure Frame (α β : Type) where
  block : β
  statement : α
  pending : List (β × Stms α β)
  rest : Stms α β

/-- **A cursor**: the list it is in, and those around that from the inside. It is to a
list of statements what a stack of block walkers is to a function. -/
structure Cursor (α β : Type) where
  frame : Frame α β
  outer : List (Frame α β)

/-- Where a cursor goes, if there is anything left, and the blocks entered
and left on the way. -/
structure Move (α β : Type) where
  dest : Option (Cursor α β)
  entered : ℕ
  exited : ℕ

/-- The frame at the first statement. -/
def front (b : β) : Stms α β → Option (Frame α β)
  | nil => none
  | leaf s rest => some ⟨b, s, [], rest⟩
  | ifElse s t e T E rest => some ⟨b, s, [(t, T), (e, E)], rest⟩
  | forLoop s c B rest => some ⟨b, s, [(c, B)], rest⟩

/-- Into the first of the blocks still to be entered. -/
def Frame.enter (fr : Frame α β) (outer : List (Frame α β)) (q : β × Stms α β)
    (pending : List (β × Stms α β)) : Option (Cursor α β) :=
  (q.2.front q.1).map fun fr' => ⟨fr', { fr with pending := pending } :: outer⟩

/-- Out of a block that is at its end, `n` blocks having been left before. -/
def leave : List (Frame α β) → ℕ → Move α β
  | [], n => ⟨none, 0, n⟩
  | fr :: outer, n =>
    match fr.pending with
    | q :: pending => ⟨fr.enter outer q pending, 1, n + 1⟩
    | [] =>
      match fr.rest.front fr.block with
      | some fr' => ⟨some ⟨fr', outer⟩, 0, n + 1⟩
      | none => leave outer (n + 1)

/-- On to the statements of a list, or out of it at its end. -/
def onward (b : β) (T : Stms α β) (outer : List (Frame α β)) : Move α β :=
  match T.front b with
  | some fr => ⟨some ⟨fr, outer⟩, 0, 0⟩
  | none => leave outer 0

namespace Cursor

variable (A : Cursor α β)

/-- Past the statement and all that is in it. -/
def skip : Move α β := onward A.frame.block A.frame.rest A.outer

/-- To the next statement of the text. -/
def step : Move α β :=
  match A.frame.pending with
  | q :: pending => ⟨A.frame.enter A.outer q pending, 1, 0⟩
  | [] => A.skip

/-- The statement the cursor is at. -/
def statement : α := A.frame.statement

end Cursor

/-- The outermost block. -/
def rootOf : β → List (Frame α β) → β
  | b, [] => b
  | _, fr :: outer => rootOf fr.block outer

/-! ## The order of the text -/

/-- **The cursors at the statements of a list**, in the order of the text. A frame
that was left for one of its blocks keeps the blocks that come after it. -/
def cursors : List (Frame α β) → β → Stms α β → List (Cursor α β)
  | _, _, nil => []
  | outer, b, leaf s rest => ⟨⟨b, s, [], rest⟩, outer⟩ :: rest.cursors outer b
  | outer, b, ifElse s t e T E rest =>
    ⟨⟨b, s, [(t, T), (e, E)], rest⟩, outer⟩ ::
      (T.cursors (⟨b, s, [(e, E)], rest⟩ :: outer) t ++
        (E.cursors (⟨b, s, [], rest⟩ :: outer) e ++ rest.cursors outer b))
  | outer, b, forLoop s c B rest =>
    ⟨⟨b, s, [(c, B)], rest⟩, outer⟩ ::
      (B.cursors (⟨b, s, [], rest⟩ :: outer) c ++ rest.cursors outer b)

/-- The cursors in the blocks still to be entered. -/
def Frame.inside (fr : Frame α β) (outer : List (Frame α β)) :
    List (β × Stms α β) → List (Cursor α β)
  | [] => []
  | q :: pending =>
    q.2.cursors ({ fr with pending := pending } :: outer) q.1 ++ fr.inside outer pending

/-- What is ahead in a list. -/
def Frame.ahead (fr : Frame α β) (outer : List (Frame α β)) : List (Cursor α β) :=
  fr.inside outer fr.pending ++ fr.rest.cursors outer fr.block

/-- What is ahead in lists one around the other. -/
def aheadAll : List (Frame α β) → List (Cursor α β)
  | [] => []
  | fr :: outer => fr.ahead outer ++ aheadAll outer

namespace Cursor

variable (A : Cursor α β)

/-- What is ahead of a cursor. -/
def ahead : List (Cursor α β) := aheadAll (A.frame :: A.outer)

/-- What is ahead, without what is in the statement. -/
def beyond : List (Cursor α β) :=
  A.frame.rest.cursors A.outer A.frame.block ++ aheadAll A.outer

end Cursor

/-- **The move reads the next** of the cursors ahead: it comes to the first of them
with the others ahead of it, or nowhere when there is none. -/
def Move.Reads (m : Move α β) : List (Cursor α β) → Prop
  | [] => m.dest = none
  | A :: l => m.dest = some A ∧ A.ahead = l

/-- No block still to be entered is empty. -/
def Frame.Full (fr : Frame α β) : Prop := ∀ q ∈ fr.pending, q.2.roots ≠ []

section Order

variable {T : Stms α β} {b : β} {fr : Frame α β} {outer : List (Frame α β)} {A : Cursor α β}

theorem front_eq_none : T.front b = none ↔ T = nil := by
  cases T <;> simp [front]

theorem front_block (h : T.front b = some fr) : fr.block = b := by
  cases T <;> cases h <;> rfl

/-- The cursors of a list begin at its front. -/
theorem cursors_of_front (h : T.front b = some fr) :
    T.cursors outer b = ⟨fr, outer⟩ :: fr.ahead outer := by
  cases T with
  | nil => cases h
  | leaf s rest =>
    cases h
    rfl
  | ifElse s t e T E rest =>
    cases h
    simp only [cursors, Frame.ahead, Frame.inside, List.append_nil, List.append_assoc]
  | forLoop s c B rest =>
    cases h
    simp only [cursors, Frame.ahead, Frame.inside, List.append_nil]

/-- The statements are those of the text. -/
@[simp] theorem map_statement_cursors (T : Stms α β) (outer : List (Frame α β)) (b : β) :
    (T.cursors outer b).map Cursor.statement = T.preorder := by
  induction T generalizing outer b with
  | nil => rfl
  | leaf s rest ih => rw [cursors, List.map_cons, ih, preorder, Cursor.statement]
  | ifElse s t e T E rest ihT ihE ih =>
    rw [cursors, List.map_cons, List.map_append, List.map_append, ihT, ihE, ih, preorder,
      List.append_assoc, Cursor.statement]
  | forLoop s c B rest ihB ih =>
    rw [cursors, List.map_cons, List.map_append, ihB, ih, preorder, Cursor.statement]

theorem inside_pending (l pending : List (β × Stms α β)) :
    Frame.inside { fr with pending := l } outer pending = fr.inside outer pending := by
  induction pending with
  | nil => rfl
  | cons q pending ih => rw [Frame.inside, Frame.inside, ih]

/-- What is ahead, with a block still to be entered. -/
theorem aheadAll_pending {q : β × Stms α β} {pending : List (β × Stms α β)}
    (h : fr.pending = q :: pending) : aheadAll (fr :: outer) =
      q.2.cursors ({ fr with pending := pending } :: outer) q.1 ++
        aheadAll ({ fr with pending := pending } :: outer) := by
  simp only [aheadAll, Frame.ahead, h, Frame.inside, inside_pending, List.append_assoc]

/-- What is ahead, with all blocks entered. -/
theorem aheadAll_nil (h : fr.pending = []) :
    aheadAll (fr :: outer) = fr.rest.cursors outer fr.block ++ aheadAll outer := by
  simp only [aheadAll, Frame.ahead, h, Frame.inside, List.nil_append]

theorem reads_front {entered exited : ℕ} (h : T.front b = some fr) :
    Move.Reads ⟨some ⟨fr, outer⟩, entered, exited⟩ (T.cursors outer b ++ aheadAll outer) := by
  rw [cursors_of_front h, List.cons_append]
  exact ⟨rfl, rfl⟩

theorem enter_reads {q : β × Stms α β} {pending : List (β × Stms α β)} {entered exited : ℕ}
    (h : fr.pending = q :: pending) (hfull : fr.Full) :
    Move.Reads ⟨fr.enter outer q pending, entered, exited⟩ (aheadAll (fr :: outer)) := by
  have hne : q.2.roots ≠ [] := hfull q (h ▸ List.mem_cons_self)
  obtain ⟨fr', hfr'⟩ : ∃ fr', q.2.front q.1 = some fr' := by
    refine Option.ne_none_iff_exists'.mp fun hnone => hne ?_
    rw [front_eq_none.mp hnone]
    rfl
  rw [aheadAll_pending h, Frame.enter, hfr', Option.map_some]
  exact reads_front hfr'

/-- **Leaving a block** reads what is ahead in the lists around. -/
theorem leave_reads (h : ∀ fr ∈ outer, fr.Full) (n : ℕ) :
    (leave outer n).Reads (aheadAll outer) := by
  induction outer generalizing n with
  | nil => rfl
  | cons fr outer ih =>
    unfold leave
    split
    · rename_i q pending hp
      exact enter_reads hp (h fr List.mem_cons_self)
    · rename_i hp
      rw [aheadAll_nil hp]
      split
      · exact reads_front ‹_›
      · rename_i hend
        rw [front_eq_none.mp hend]
        exact ih (fun fr hfr => h fr (List.mem_cons_of_mem _ hfr)) (n + 1)

theorem skip_reads (h : ∀ fr ∈ A.outer, fr.Full) : A.skip.Reads A.beyond := by
  unfold Cursor.skip Cursor.beyond onward
  split
  · exact reads_front ‹_›
  · rename_i hend
    rw [front_eq_none.mp hend]
    exact leave_reads h 0

/-- **A step** reads what is ahead. -/
theorem step_reads (hfull : A.frame.Full) (h : ∀ fr ∈ A.outer, fr.Full) :
    A.step.Reads A.ahead := by
  unfold Cursor.step Cursor.ahead
  split
  · exact enter_reads ‹_› hfull
  · rw [aheadAll_nil ‹_›]
    exact skip_reads h

end Order

end Stms

end Common

end CLSmith
