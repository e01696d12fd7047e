import CLSmith.Exhaustive.DFSRndNumGenerator
/-!
# The search is complete

Between two runs the search stands at a path of choices: the states up to the
decision depth hold it, and no other is set. A run revisits the path, advances
at its end and enters what is below for the first time. So the runs that come
by a node give the leaves below it in order, and leave the search at the path
to the node.
-/

namespace CLSmith

namespace Exhaustive

namespace Request

variable {r : Request} {n v w : ℕ}

/-- The values from `v` on that are not filtered out. -/
def goodFrom (r : Request) (v : ℕ) : List ℕ :=
  (List.range' v (r.bound - v)).filter fun w => !r.bad w

theorem mem_goodFrom : w ∈ r.goodFrom v ↔ v ≤ w ∧ w < r.bound ∧ r.bad w = false := by
  unfold goodFrom
  rw [List.mem_filter, List.mem_range'_1, Bool.not_eq_true']
  constructor
  · rintro ⟨⟨hv, hw⟩, hbad⟩
    exact ⟨hv, by omega, hbad⟩
  · rintro ⟨hv, hw, hbad⟩
    exact ⟨⟨hv, by omega⟩, hbad⟩

theorem goodFrom_of_le (h : r.bound ≤ v) : r.goodFrom v = [] := by
  unfold goodFrom
  rw [Nat.sub_eq_zero_of_le h]
  rfl

theorem goodFrom_cons (h : v < r.bound) :
    r.goodFrom v = if r.bad v then r.goodFrom (v + 1) else v :: r.goodFrom (v + 1) := by
  unfold goodFrom
  obtain ⟨k, hk⟩ : ∃ k, r.bound - v = k + 1 := ⟨r.bound - v - 1, by omega⟩
  have hk' : r.bound - (v + 1) = k := by omega
  rw [hk, hk', List.range'_succ, List.filter_cons]
  cases r.bad v with
  | false => rfl
  | true => rfl

/-- **The next value is the first of those that are left**, if there is one. -/
theorem skipFrom_spec (h : r.bound ≤ n + v) :
    (r.bound ≤ r.skipFrom n v ∧ r.goodFrom v = []) ∨
      (r.skipFrom n v < r.bound ∧ r.bad (r.skipFrom n v) = false ∧ v ≤ r.skipFrom n v ∧
        r.goodFrom v = r.skipFrom n v :: r.goodFrom (r.skipFrom n v + 1)) := by
  induction n generalizing v with
  | zero =>
    have hle : r.bound ≤ v := by omega
    exact .inl ⟨hle, goodFrom_of_le hle⟩
  | succ n ih =>
    rcases Nat.lt_or_ge v r.bound with hlt | hge
    · cases hbad : r.bad v with
      | true =>
        have hskip : r.skipFrom (n + 1) v = r.skipFrom n (v + 1) := by
          rw [skipFrom, decide_eq_true hlt, hbad]
          rfl
        have hgood : r.goodFrom v = r.goodFrom (v + 1) := by
          rw [goodFrom_cons hlt, hbad]
          rfl
        rw [hskip, hgood]
        rcases ih (v := v + 1) (by omega) with h' | ⟨hb, hf, hv, hcons⟩
        · exact .inl h'
        · exact .inr ⟨hb, hf, by omega, hcons⟩
      | false =>
        have hskip : r.skipFrom (n + 1) v = v := by
          rw [skipFrom, hbad, Bool.and_false]
          rfl
        rw [hskip]
        refine .inr ⟨hlt, hbad, Nat.le_refl v, ?_⟩
        rw [goodFrom_cons hlt, hbad]
        rfl
    · have hskip : r.skipFrom (n + 1) v = v := by
        rw [skipFrom, decide_eq_false (by omega)]
        rfl
      rw [hskip]
      exact .inl ⟨hge, goodFrom_of_le hge⟩

end Request

namespace Tree

/-- The paths to the leaves, in order. -/
def leaves : Tree → List (List ℕ)
  | leaf => [[]]
  | node r next => (r.goodFrom 0).flatMap fun v => (next v).leaves.map (v :: ·)

/-- The tree below a path. -/
def under : Tree → List ℕ → Tree
  | t, [] => t
  | leaf, _ :: _ => leaf
  | node _ next, v :: l => (next v).under l

variable {t : Tree} {l q p : List ℕ} {v : ℕ}

theorem mem_leaves : l ∈ t.leaves ↔ t.Reaches l := by
  induction t generalizing l with
  | leaf => exact List.mem_singleton
  | node r next ih =>
    unfold leaves
    rw [List.mem_flatMap]
    cases l with
    | nil =>
      constructor
      · rintro ⟨v, -, h⟩
        obtain ⟨_, -, h⟩ := List.mem_map.mp h
        cases h
      · exact fun h => h.elim
    | cons v l =>
      constructor
      · rintro ⟨w, hw, h⟩
        obtain ⟨l', hl', h⟩ := List.mem_map.mp h
        obtain ⟨rfl, rfl⟩ := List.cons.inj h
        obtain ⟨-, hlt, hbad⟩ := Request.mem_goodFrom.mp hw
        exact ⟨hlt, hbad, (ih w).mp hl'⟩
      · rintro ⟨hlt, hbad, h⟩
        exact ⟨v, Request.mem_goodFrom.mpr ⟨Nat.zero_le v, hlt, hbad⟩,
          List.mem_map.mpr ⟨l, (ih v).mpr h, rfl⟩⟩

/-- **The leaves are in lexicographic order**, each once. -/
theorem pairwise_leaves : t.leaves.Pairwise (List.Lex (· < ·)) := by
  induction t with
  | leaf => exact List.pairwise_singleton _ _
  | node r next ih =>
    unfold leaves
    rw [List.pairwise_flatMap]
    constructor
    · intro v _
      rw [List.pairwise_map]
      exact (ih v).imp fun h => List.Lex.cons h
    · have hsorted : (r.goodFrom 0).Pairwise (· < ·) :=
        List.Pairwise.filter _ List.pairwise_lt_range'
      refine hsorted.imp fun {v w} hlt l hl m hm => ?_
      obtain ⟨l', -, rfl⟩ := List.mem_map.mp hl
      obtain ⟨m', -, rfl⟩ := List.mem_map.mp hm
      exact List.Lex.rel hlt

theorem under_nil : t.under [] = t := by
  cases t with
  | leaf => rfl
  | node r next => rfl

theorem follows_nil : t.Follows [] := by
  cases t with
  | leaf => trivial
  | node r next => trivial

theorem under_append : t.under (q ++ p) = (t.under q).under p := by
  induction q generalizing t with
  | nil =>
    cases t with
    | leaf => rfl
    | node r next => rfl
  | cons v q ih =>
    cases t with
    | leaf =>
      cases p with
      | nil => rfl
      | cons w p => rfl
    | node r next => exact ih

theorem follows_append : t.Follows (q ++ p) ↔ t.Follows q ∧ (t.under q).Follows p := by
  induction q generalizing t with
  | nil =>
    cases t with
    | leaf => exact ⟨fun h => ⟨trivial, h⟩, fun h => h.2⟩
    | node r next => exact ⟨fun h => ⟨trivial, h⟩, fun h => h.2⟩
  | cons v q ih =>
    cases t with
    | leaf => exact ⟨fun h => h.elim, fun h => h.1.elim⟩
    | node r next =>
      have hnext := ih (t := next v)
      constructor
      · rintro ⟨hlt, hbad, h⟩
        exact ⟨⟨hlt, hbad, (hnext.mp h).1⟩, (hnext.mp h).2⟩
      · rintro ⟨⟨hlt, hbad, h⟩, h'⟩
        exact ⟨hlt, hbad, hnext.mpr ⟨h, h'⟩⟩

/-- A child is less deep. -/
theorem depth_lt {r : Request} {next : ℕ → Tree} (hv : v < r.bound) :
    (next v).depth + 1 ≤ (node r next).depth := by
  have key : ∀ l : List ℕ, v ∈ l →
      (next v).depth ≤ l.foldr (fun v m => max (next v).depth m) 0 := by
    intro l
    induction l with
    | nil => exact fun h => nomatch h
    | cons w l ih =>
      intro h
      rw [List.foldr_cons]
      rcases List.mem_cons.mp h with rfl | h
      · exact Nat.le_max_left _ _
      · exact Nat.le_trans (ih h) (Nat.le_max_right _ _)
  have hmem := key (List.range r.bound) (List.mem_range.mpr hv)
  rw [depth]
  omega

end Tree

/-! ## One choice -/

namespace DFSRndNumGenerator

variable {N : ℕ} {g : DFSRndNumGenerator} {r : Request} {q p : List ℕ} {v w : ℕ}

/-- The states up to the depth of `p` hold it. -/
def Holds (p : List ℕ) (g : DFSRndNumGenerator) : Prop :=
  ∀ (i : ℕ) v, p[i]? = some v → (g.states i).init = true ∧ (g.states i).value = v

/-- No state is set from `d` on. -/
def Unset (d : ℕ) (g : DFSRndNumGenerator) : Prop := ∀ i : ℤ, d ≤ i → (g.states i).init = false

/-- **The search is at a path**: the states hold its choices, and none is set beyond
it. -/
structure Shape (p : List ℕ) (g : DFSRndNumGenerator) : Prop where
  depth : g.decisionDepth = p.length - 1
  holds : g.Holds p
  unset : g.Unset p.length

/-- **A run has made the choices `q`**, the search being at `p`. The position in the
run is that of the last choice made. -/
structure Inside (q p : List ℕ) (g : DFSRndNumGenerator) : Prop where
  shape : g.Shape p
  pos : g.currentPos = q.length - 1
  going : g.allDone = false
  success : g.error = .success

/-- **A run has ended without a value**, and the search is back at `q`. It is over
when nothing is left to go back to. -/
structure Ended (q : List ℕ) (g : DFSRndNumGenerator) : Prop where
  shape : g.Shape q
  done : g.allDone = decide (q = [])
  failed : g.error = .backtracking

/-- **The run is at the node** the path `q` leads to, whose state is set, with none
set below it. -/
structure AtNode (q : List ℕ) (g : DFSRndNumGenerator) : Prop where
  pos : g.currentPos = q.length
  depth : g.decisionDepth = q.length
  holds : g.Holds q
  init : (g.states q.length).init = true
  unset : g.Unset (q.length + 1)
  going : g.allDone = false
  success : g.error = .success

theorem AtNode.backtrack (h : g.AtNode q) (hmax : q.length < N) : (g.backtrack N).1.Ended q := by
  refine ⟨⟨?_, fun i w hi => ?_, fun i hi => ?_⟩, ?_, rfl⟩
  · show g.decisionDepth - 1 = _
    rw [h.depth]
  · have hlt : i < q.length := (List.getElem?_eq_some_iff.mp hi).1
    have hstate : ((g.backtrack N).1.states i) = g.states i := by
      refine if_neg fun hle => ?_
      have hpos := hle.1
      rw [h.pos] at hpos
      omega
    rw [hstate]
    exact h.holds i w hi
  · show (if g.currentPos ≤ i ∧ i < N then { g.states i with init := false }
      else g.states i).init = false
    split
    · rfl
    · next hout =>
      -- beyond the vector, where no state is set either
      have hpos := h.pos
      exact h.unset i (by omega)
  · show (g.allDone || decide (g.decisionDepth - 1 < 0)) = _
    rw [h.going, h.depth, Bool.false_or]
    refine decide_eq_decide.mpr ?_
    rw [← List.length_eq_zero_iff]
    omega

theorem AtNode.take (h : g.AtNode q) (hv : (g.states q.length).value = v) :
    (g.take v).1.Inside (q ++ [v]) (q ++ [v]) := by
  have hlen : (q ++ [v]).length = q.length + 1 := by simp
  refine ⟨⟨?_, fun i w hi => ?_, fun i hi => ?_⟩, ?_, h.going, h.success⟩
  · show g.decisionDepth = _
    rw [h.depth, hlen]
    omega
  · rcases Nat.lt_or_ge i q.length with hlt | hge
    · rw [List.getElem?_append_left hlt] at hi
      exact h.holds i w hi
    · have hlt' := (List.getElem?_eq_some_iff.mp hi).1
      obtain rfl : i = q.length := by omega
      rw [List.getElem?_concat_length] at hi
      obtain rfl := Option.some.inj hi
      exact ⟨h.init, hv⟩
  · rw [hlen] at hi
    exact h.unset i hi
  · show g.currentPos = _
    rw [h.pos, hlen]
    omega

/-- The search once a request has its position. -/
def ask (r : Request) (g : DFSRndNumGenerator) : DFSRndNumGenerator :=
  ({ g with currentPos := g.currentPos + 1 } : DFSRndNumGenerator).setState (g.currentPos + 1)
    { g.states (g.currentPos + 1) with bound := r.bound }

theorem ask_states (i : ℤ) : ((g.ask r).states i).init = (g.states i).init ∧
    ((g.ask r).states i).value = (g.states i).value := by
  show (Function.update g.states (g.currentPos + 1) _ i).init = _ ∧
    (Function.update g.states (g.currentPos + 1) _ i).value = _
  by_cases h : i = g.currentPos + 1
  · rw [h, Function.update_self]
    exact ⟨rfl, rfl⟩
  · rw [Function.update_of_ne h]
    exact ⟨rfl, rfl⟩

theorem ask_pos (h : g.Inside q p) : (g.ask r).currentPos = q.length := by
  show g.currentPos + 1 = _
  rw [h.pos]
  omega

theorem ask_holds (h : g.Holds p) : (g.ask r).Holds p := by
  intro i v hi
  rw [(ask_states i).1, (ask_states i).2]
  exact h i v hi

theorem ask_unset {d : ℕ} (h : g.Unset d) : (g.ask r).Unset d := by
  intro i hi
  rw [(ask_states i).1]
  exact h i hi

/-- Within the depth a request is one of the three kinds. -/
theorem randomChoice_eq (h : g.Inside q p) (hq : q.length < N) (hp : p.length ≤ N) :
    g.randomChoice N r =
      if (q.length : ℤ) < g.decisionDepth ∧ (g.states q.length).init then
        (g.ask r).revisitNode N r
      else if (g.states q.length).init then some ((g.ask r).switchBranch N r)
      else some ((g.ask r).firstVisit N r) := by
  have hpos : g.currentPos + 1 = q.length := by rw [h.pos]; omega
  have hin : ¬ ((N : ℤ) ≤ g.currentPos + 1 ∨ (N : ℤ) ≤ g.decisionDepth) := by
    have hdepth := h.shape.depth
    omega
  have hinit := (ask_states (g := g) (r := r) q.length).1
  unfold randomChoice
  split
  · next herr => rw [h.success] at herr; cases herr
  · next herr => rw [h.success] at herr; cases herr
  · simp only [hin, if_false]
    rw [← hinit, ← hpos]
    rfl

/-- What the loop of `firstVisit` leaves as it is. -/
theorem firstLoop_spec {n : ℕ} {c : ℤ} (hc : c ≤ g.decisionDepth) (hpos : c ≤ g.currentPos) :
    (firstLoop N r n v g).2 = r.skipFrom n v ∧
      (firstLoop N r n v g).1.currentPos = g.currentPos ∧
      (firstLoop N r n v g).1.allDone = g.allDone ∧
      (firstLoop N r n v g).1.error = g.error ∧
      (∀ i, ((firstLoop N r n v g).1.states i).init = (g.states i).init) ∧
      ∀ i < c, (firstLoop N r n v g).1.states i = g.states i := by
  induction n generalizing g v with
  | zero => exact ⟨rfl, rfl, rfl, rfl, fun _ => rfl, fun _ _ => rfl⟩
  | succ n ih =>
    rw [firstLoop, Request.skipFrom]
    split
    · obtain ⟨hskip, hpos', hdone, herr, hinit, hstates⟩ :=
        ih (g := { g.zeroValues N g.decisionDepth with decisionDepth := g.currentPos })
          (v := v + 1) hpos hpos
      refine ⟨hskip, hpos', hdone, herr, fun i => (hinit i).trans ?_, fun i hi =>
        (hstates i hi).trans ?_⟩
      · show (if g.decisionDepth ≤ i ∧ i < N then { g.states i with value := 0 }
          else g.states i).init = _
        split
        · rfl
        · rfl
      · exact if_neg fun h => by have := h.1; omega
    · exact ⟨rfl, rfl, rfl, rfl, fun _ => rfl, fun _ _ => rfl⟩

/-- **What a node makes of a run** that has come to the value `w` there. -/
theorem AtNode.choose {g' : DFSRndNumGenerator} (h : g.AtNode q) (h' : g'.AtNode q)
    (hv : (g'.states q.length).value = w) (hmax : q.length < N) {n : ℕ}
    (hn : r.bound ≤ n + v) (hw : w = r.skipFrom n v) :
    (r.goodFrom v = [] ∧ ∃ g'', (if r.bound ≤ w then g.backtrack N else g'.take w) =
        (g'', none) ∧ g''.Ended q) ∨
      ∃ w', w' < r.bound ∧ r.bad w' = false ∧ r.goodFrom v = w' :: r.goodFrom (w' + 1) ∧
        ∃ g'', (if r.bound ≤ w then g.backtrack N else g'.take w) = (g'', some w') ∧
          g''.Inside (q ++ [w']) (q ++ [w']) := by
  rcases Request.skipFrom_spec hn with ⟨hle, hnil⟩ | ⟨hlt, hbad, -, hcons⟩
  · rw [← hw] at hle
    rw [if_pos hle]
    exact .inl ⟨hnil, _, rfl, h.backtrack hmax⟩
  · rw [← hw] at hlt hbad hcons
    rw [if_neg (Nat.not_le.mpr hlt)]
    exact .inr ⟨w, hlt, hbad, hcons, _, rfl, h'.take hv⟩

/-- Setting the value of a node leaves the run at it. -/
theorem AtNode.setValue (h : g.AtNode q) :
    (g.setState g.currentPos { g.states g.currentPos with value := v }).AtNode q ∧
      ((g.setState g.currentPos { g.states g.currentPos with value := v }).states
        q.length).value = v := by
  have hself : (g.setState g.currentPos { g.states g.currentPos with value := v }).states
      q.length = { g.states q.length with value := v } := by
    rw [h.pos]
    exact Function.update_self _ _ _
  have hother : ∀ i : ℤ, i ≠ q.length → (g.setState g.currentPos
      { g.states g.currentPos with value := v }).states i = g.states i := by
    intro i hi
    rw [h.pos]
    exact Function.update_of_ne hi _ _
  refine ⟨⟨h.pos, h.depth, fun i u hi => ?_, ?_, fun i hi => ?_, h.going, h.success⟩, ?_⟩
  · have hlt : i < q.length := (List.getElem?_eq_some_iff.mp hi).1
    rw [hother i (by omega)]
    exact h.holds i u hi
  · rw [hself]
    exact h.init
  · rw [hother i (by omega)]
    exact h.unset i hi
  · rw [hself]

/-- **A request at a node that has not been seen**: its first value, or the
end of the run. -/
theorem randomChoice_enter (h : g.Inside q q) (hmax : q.length < N) :
    (r.goodFrom 0 = [] ∧ ∃ g', g.randomChoice N r = some (g', none) ∧ g'.Ended q) ∨
      ∃ w, w < r.bound ∧ r.bad w = false ∧ r.goodFrom 0 = w :: r.goodFrom (w + 1) ∧
        ∃ g', g.randomChoice N r = some (g', some w) ∧
          g'.Inside (q ++ [w]) (q ++ [w]) := by
  have hinit : (g.states q.length).init = false := h.shape.unset _ (Int.le_refl _)
  have hchoice : g.randomChoice N r = some ((g.ask r).firstVisit N r) := by
    rw [randomChoice_eq h hmax (Nat.le_of_lt hmax), hinit, if_neg (by simp), if_neg (by simp)]
  -- the search when the loop starts
  obtain ⟨g₀, hg₀⟩ : ∃ g₀, g₀ = ({ g.ask r with
      decisionDepth := (g.ask r).decisionDepth + 1 } : DFSRndNumGenerator).setState
        (g.ask r).currentPos ⟨true, 0, r.bound⟩ := ⟨_, rfl⟩
  have hpos : g₀.currentPos = q.length := by rw [hg₀]; exact ask_pos (r := r) h
  have hdepth : g₀.decisionDepth = q.length := by
    rw [hg₀]
    show g.decisionDepth + 1 = _
    rw [h.shape.depth]
    omega
  have hself : g₀.states q.length = ⟨true, 0, r.bound⟩ := by
    rw [hg₀, ← ask_pos (r := r) h]
    exact Function.update_self _ _ _
  have hother : ∀ i : ℤ, i ≠ q.length → g₀.states i = (g.ask r).states i := by
    intro i hi
    rw [hg₀]
    exact Function.update_of_ne (by rw [ask_pos (r := r) h]; exact hi) _ _
  obtain ⟨hskip, hpos', hdone, herr, hinit', hstates⟩ := firstLoop_spec (N := N)
    (r := r) (n := r.bound) (v := 0) (g := g₀) (c := q.length) (Int.le_of_eq hdepth.symm)
    (Int.le_of_eq hpos.symm)
  -- and when it is through
  have hnode : ({ (firstLoop N r r.bound 0 g₀).1 with
      decisionDepth := (firstLoop N r r.bound 0 g₀).1.currentPos } :
        DFSRndNumGenerator).AtNode q := by
    refine ⟨hpos'.trans hpos, hpos'.trans hpos, fun i u hi => ?_, ?_, fun i hi => ?_, ?_, ?_⟩
    · have hlt : i < q.length := (List.getElem?_eq_some_iff.mp hi).1
      show ((firstLoop N r r.bound 0 g₀).1.states i).init = true ∧ _ = u
      rw [hstates i (by omega), hother i (by omega)]
      exact ask_holds h.shape.holds i u hi
    · rw [hinit' q.length, hself]
    · rw [hinit' i, hother i (by omega)]
      exact ask_unset h.shape.unset i (by omega)
    · exact hdone.trans (by rw [hg₀]; exact h.going)
    · exact herr.trans (by rw [hg₀]; exact h.success)
  obtain ⟨hset, hvalue⟩ := hnode.setValue (v := (firstLoop N r r.bound 0 g₀).2)
  have hchoose := hnode.choose hset hvalue hmax (Nat.le_refl (r.bound + 0)) hskip
  subst hg₀
  rw [hchoice]
  rcases hchoose with ⟨hnil, g', hg', hend⟩ | ⟨w, hlt, hbad, hcons, g', hg', hin⟩
  · exact .inl ⟨hnil, g', congrArg some hg', hend⟩
  · exact .inr ⟨w, hlt, hbad, hcons, g', congrArg some hg', hin⟩

/-- **A request at the node the path ends in**: the next value, or the end of
the run. -/
theorem randomChoice_advance (h : g.Inside q (q ++ [v])) (hmax : q.length < N) :
    (r.goodFrom (v + 1) = [] ∧ ∃ g', g.randomChoice N r = some (g', none) ∧ g'.Ended q) ∨
      ∃ w, w < r.bound ∧ r.bad w = false ∧ r.goodFrom (v + 1) = w :: r.goodFrom (w + 1) ∧
        ∃ g', g.randomChoice N r = some (g', some w) ∧
          g'.Inside (q ++ [w]) (q ++ [w]) := by
  have hlen : (q ++ [v]).length = q.length + 1 := by simp
  have hdepth : g.decisionDepth = q.length := by
    rw [h.shape.depth, hlen]
    omega
  obtain ⟨hinit, hvalue⟩ := h.shape.holds q.length v List.getElem?_concat_length
  have hchoice : g.randomChoice N r = some ((g.ask r).switchBranch N r) := by
    rw [randomChoice_eq h hmax (by omega), hinit, if_neg (by omega), if_pos rfl]
  have hholds : (g.ask r).Holds q := by
    intro i u hi
    have hlt : i < q.length := (List.getElem?_eq_some_iff.mp hi).1
    exact ask_holds h.shape.holds i u (by rw [List.getElem?_append_left hlt]; exact hi)
  have hunset : (g.ask r).Unset (q.length + 1) := hlen ▸ ask_unset h.shape.unset
  have hnode : (g.ask r).AtNode q := by
    refine ⟨ask_pos h, hdepth, hholds, ?_, hunset, h.going, h.success⟩
    rw [(ask_states q.length).1, hinit]
  have hstart : ((g.ask r).states (g.ask r).currentPos).value = v := by
    rw [ask_pos h, (ask_states q.length).2, hvalue]
  obtain ⟨hset, hval⟩ := hnode.setValue
    (v := r.skipFrom r.bound (((g.ask r).states (g.ask r).currentPos).value + 1))
  have hchoose := hset.choose hset hval hmax (n := r.bound) (r := r) (v := v + 1) (by omega)
    (by rw [hstart])
  rw [hchoice]
  rcases hchoose with ⟨hnil, g', hg', hend⟩ | ⟨w, hlt, hbad, hcons, g', hg', hin⟩
  · exact .inl ⟨hnil, g', congrArg some hg', hend⟩
  · exact .inr ⟨w, hlt, hbad, hcons, g', congrArg some hg', hin⟩

/-- **A request at a node the path goes through**: the value it goes by. -/
theorem randomChoice_revisit (h : g.Inside q (q ++ v :: w :: p))
    (hmax : (q ++ v :: w :: p).length ≤ N) (hv : v < r.bound) :
    ∃ g', g.randomChoice N r = some (g', some v) ∧
      g'.Inside (q ++ [v]) (q ++ v :: w :: p) := by
  have hlen : (q ++ v :: w :: p).length = q.length + (p.length + 2) := by simp
  have hdepth : (q.length : ℤ) < g.decisionDepth := by
    rw [h.shape.depth, hlen]
    omega
  obtain ⟨hinit, hvalue⟩ := h.shape.holds q.length v (by
    rw [List.getElem?_append_right (Nat.le_refl _), Nat.sub_self]
    rfl)
  have hchoice : g.randomChoice N r = (g.ask r).revisitNode N r := by
    rw [randomChoice_eq h (by omega) hmax, hinit, if_pos ⟨hdepth, rfl⟩]
  have hpos : (g.ask r).currentPos = q.length := ask_pos h
  have hval : ((g.ask r).states (g.ask r).currentPos).value = v := by
    rw [hpos, (ask_states q.length).2, hvalue]
  have hrevisit : (g.ask r).revisitNode N r = some ((g.ask r).take v) := by
    have hbound : decide (r.bound ≤ v) = false := decide_eq_false (by omega)
    have hdeep : decide ((N : ℤ) ≤ (g.ask r).currentPos) = false :=
      decide_eq_false (by rw [hpos]; omega)
    rw [revisitNode]
    simp only [hval, hbound, hdeep, Bool.or_self, Bool.and_false, Bool.false_eq_true, if_false]
  refine ⟨((g.ask r).take v).1, by rw [hchoice, hrevisit]; rfl, ⟨h.shape.depth, ?_, ?_⟩, ?_,
    h.going, h.success⟩
  · exact ask_holds h.shape.holds
  · exact ask_unset h.shape.unset
  · show (g.ask r).currentPos = _
    rw [hpos]
    simp

end DFSRndNumGenerator

/-! ## Runs -/

open DFSRndNumGenerator

variable {N : ℕ} {T t : Tree} {g g' g'' h : DFSRndNumGenerator} {q p l : List ℕ} {v : ℕ}
  {rs rs' : List Run}

/-- **A run revisits the path**, up to its last choice. -/
theorem generate_revisit (hg : g.Inside q (q ++ (p ++ [v]))) (hp : t.Follows p)
    (hmax : (q ++ (p ++ [v])).length ≤ N) :
    ∃ g', g'.Inside (q ++ p) (q ++ (p ++ [v])) ∧ t.generate N g =
      ((t.under p).generate N g').map fun x => (x.1, p ++ x.2) := by
  induction p generalizing t q g with
  | nil =>
    refine ⟨g, by rwa [List.append_nil], ?_⟩
    have hid : (fun x : DFSRndNumGenerator × List ℕ => (x.1, [] ++ x.2)) = id := rfl
    rw [hid, Option.map_id, Tree.under_nil]
    rfl
  | cons u p ih =>
    cases t with
    | leaf => exact hp.elim
    | node r next =>
      obtain ⟨hu, -, hp⟩ := hp
      obtain ⟨w, p', hw⟩ : ∃ w p', p ++ [v] = w :: p' := by
        cases p with
        | nil => exact ⟨v, [], rfl⟩
        | cons w p => exact ⟨w, p ++ [v], rfl⟩
      rw [List.cons_append, hw] at hg hmax
      -- The generator still holds this choice and makes it again; the rest of the path is the
      -- hypothesis.
      obtain ⟨g₁, hchoice, hg₁⟩ := randomChoice_revisit (r := r) hg hmax hu
      have hsplit : q ++ u :: w :: p' = (q ++ [u]) ++ (p ++ [v]) := by
        rw [hw, List.append_assoc]
        rfl
      rw [hsplit] at hg₁ hmax
      obtain ⟨g', hg', hrun⟩ := ih hg₁ hp hmax
      have hq : q ++ [u] ++ p = q ++ u :: p := by simp
      refine ⟨g', ?_, ?_⟩
      · rw [List.cons_append, hw, hsplit, ← hq]
        exact hg'
      · rw [Tree.generate, hchoice]
        simp only [hrun, Option.map_map]
        rfl

/-- Runs one after the other, each with the generator the one before has left, for as
long as it is not all done. -/
inductive Goes (N : ℕ) (T : Tree) :
    DFSRndNumGenerator → List Run → DFSRndNumGenerator → Prop
  | refl (g : DFSRndNumGenerator) : Goes N T g [] g
  | step {g h g' : DFSRndNumGenerator} {l : List ℕ} {rs : List Run} (hgo : g.allDone = false)
      (hrun : T.generate N { g with error := .success } = some (h, l))
      (hrest : Goes N T h.resetState rs g') :
      Goes N T g (⟨l, decide (h.error = .success)⟩ :: rs) g'

theorem Goes.trans (h₁ : Goes N T g rs g') (h₂ : Goes N T g' rs' g'') :
    Goes N T g (rs ++ rs') g'' := by
  induction h₁ with
  | refl => exact h₂
  | step hgo hrun _ ih => exact .step hgo hrun (ih h₂)

/-- Runs that end with the search done are those of `goGenerator`. -/
theorem Goes.goGenerator (h₁ : Goes N T g rs g') (hdone : g'.allDone = true) :
    ∃ n, goGenerator N T n g = some (g', rs) := by
  induction h₁ with
  | refl g => exact ⟨0, if_pos hdone⟩
  | step hgo hrun _ ih =>
    obtain ⟨n, hn⟩ := ih hdone
    refine ⟨n + 1, ?_⟩
    unfold Exhaustive.goGenerator
    split
    · next hd => rw [hgo] at hd; cases hd
    · rw [hrun]
      simp only [hn, Option.map_some]

/-- **Between two runs**, the search is at `p`, and the next run starts over from the
root. -/
structure Between (p : List ℕ) (done : Bool) (g : DFSRndNumGenerator) : Prop where
  shape : g.Shape p
  pos : g.currentPos = -1
  done : g.allDone = done

theorem Between.start (hg : Between p false g) :
    ({ g with error := .success } : DFSRndNumGenerator).Inside [] p :=
  ⟨⟨hg.shape.depth, hg.shape.holds, hg.shape.unset⟩, hg.pos, hg.done, rfl⟩

theorem DFSRndNumGenerator.Ended.between (hg : g.Ended q) :
    Between q (decide (q = [])) g.resetState :=
  ⟨⟨hg.shape.depth, hg.shape.holds, hg.shape.unset⟩, rfl, hg.done⟩

theorem DFSRndNumGenerator.Inside.between (hg : g.Inside q p) : Between p false g.resetState :=
  ⟨⟨hg.shape.depth, hg.shape.holds, hg.shape.unset⟩, rfl, hg.going⟩

/-- **Whole runs** that follow the tree, and where they leave the search. The runs are
listed with the choices each has made. -/
structure Explores (N : ℕ) (T : Tree) (q : List ℕ) (done : Bool) (g : DFSRndNumGenerator)
    (rs : List Run) : Prop where
  goes : ∃ g', Goes N T g rs g' ∧ Between q done g'
  follows : ∀ r ∈ rs, T.Follows r.choices

/-- **A run enters `t`**, which the path `q` leads to: it and the runs after it
give the leaves of `t`, and leave the search at `q`. -/
def Enters (N : ℕ) (T : Tree) (q : List ℕ) (t : Tree) (g : DFSRndNumGenerator) : Prop :=
  ∃ h l rs, t.generate N g = some (h, l) ∧ T.Follows (q ++ l) ∧
    Explores N T q (decide (q = []) && decide (0 < t.depth)) h.resetState rs ∧
    programs (⟨q ++ l, decide (h.error = .success)⟩ :: rs) = t.leaves.map (q ++ ·)

theorem programs_append : programs (rs ++ rs') = programs rs ++ programs rs' := by
  unfold programs
  rw [List.filter_append, List.map_append]

/-- The leaves below the values of a node from `v` on. -/
def leavesFrom (q : List ℕ) (r : Request) (next : ℕ → Tree) (v : ℕ) : List (List ℕ) :=
  (r.goodFrom v).flatMap fun w => (next w).leaves.map fun l => q ++ w :: l

theorem leavesFrom_zero {r : Request} {next : ℕ → Tree} :
    leavesFrom q r next 0 = (Tree.node r next).leaves.map (q ++ ·) := by
  have hleaves : (Tree.node r next).leaves =
    (r.goodFrom 0).flatMap fun v => (next v).leaves.map (v :: ·) := rfl
  rw [hleaves, List.map_flatMap]
  simp only [List.map_map]
  rfl

/-- The run that takes the value `w` of a node, and those that follow until
the search is back at the node. -/
theorem explore_child {r : Request} {next : ℕ → Tree} {w : ℕ}
    (hchild : Enters N T (q ++ [w]) (next w) h)
    (hrest : ∀ g, Between (q ++ [w]) false g → ∃ rs,
      Explores N T q (decide (q = [])) g rs ∧ programs rs = leavesFrom q r next (w + 1))
    (hcons : r.goodFrom v = w :: r.goodFrom (w + 1)) :
    ∃ g' l rs, (next w).generate N h = some (g', l) ∧ T.Follows (q ++ w :: l) ∧
      Explores N T q (decide (q = [])) g'.resetState rs ∧
      programs (⟨q ++ w :: l, decide (g'.error = .success)⟩ :: rs) = leavesFrom q r next v := by
  obtain ⟨g', l, rs₁, hrun, hfol, ⟨⟨g₁, hgoes₁, hg₁⟩, hfol₁⟩, hprog₁⟩ := hchild
  have hne : decide (q ++ [w] = []) = false := decide_eq_false (by simp)
  rw [hne, Bool.false_and] at hg₁
  obtain ⟨rs₂, ⟨⟨g₂, hgoes₂, hg₂⟩, hfol₂⟩, hprog₂⟩ := hrest g₁ hg₁
  have hq : ∀ l, q ++ [w] ++ l = q ++ w :: l := fun l => by simp
  rw [hq] at hfol hprog₁
  refine ⟨g', l, rs₁ ++ rs₂, hrun, hfol, ⟨⟨g₂, hgoes₁.trans hgoes₂, hg₂⟩, fun x hx => ?_⟩, ?_⟩
  · rcases List.mem_append.mp hx with hx | hx
    · exact hfol₁ x hx
    · exact hfol₂ x hx
  · rw [← List.cons_append, programs_append, hprog₁, hprog₂]
    unfold leavesFrom
    rw [hcons, List.flatMap_cons]
    simp only [hq]

/-- **The runs from a child of a node on**: the siblings that are left one
after the other, and back at the node. -/
theorem explore_siblings {r : Request} {next : ℕ → Tree} (hT : T.under q = .node r next)
    (hq : T.Follows q) (hlen : q.length < N)
    (hchild : ∀ w, w < r.bound → r.bad w = false → ∀ g, g.Inside (q ++ [w]) (q ++ [w]) →
      Enters N T (q ++ [w]) (next w) g)
    (hg : Between (q ++ [v]) false g) :
    ∃ rs, Explores N T q (decide (q = [])) g rs ∧
      programs rs = leavesFrom q r next (v + 1) := by
  induction hk : r.bound - v using Nat.strong_induction_on generalizing v g with
  | _ k ih =>
    have hlen' : ([] ++ (q ++ [v])).length ≤ N := by simpa using Nat.succ_le_of_lt hlen
    -- the run comes back to the node
    obtain ⟨g₁, hg₁, hrun⟩ := generate_revisit (t := T) (q := []) hg.start hq hlen'
    rw [hT, Tree.generate] at hrun
    rcases randomChoice_advance (r := r) hg₁ hlen with
      ⟨hnil, g', hchoice, hend⟩ | ⟨w, hw, hbad, hcons, g', hchoice, hin⟩
    · rw [hchoice] at hrun
      refine ⟨[⟨q, decide (g'.error = .success)⟩], ⟨⟨g'.resetState, ?_, hend.between⟩, ?_⟩, ?_⟩
      · refine .step hg.done ?_ (.refl _)
        rw [hrun]
        simp
      · exact List.forall_mem_singleton.mpr hq
      · have hfail : decide (g'.error = .success) = false := by rw [hend.failed]; rfl
        rw [hfail, leavesFrom, hnil]
        rfl
    · rw [hchoice] at hrun
      have hmem : w ∈ r.goodFrom (v + 1) := by
        rw [hcons]
        exact List.mem_cons_self
      have hvw := (Request.mem_goodFrom.mp hmem).1
      obtain ⟨h, l, rs, hgen, hfol, ⟨⟨g₂, hgoes, hbetween⟩, hfols⟩, hprog⟩ :=
        explore_child (hchild w hw hbad g' hin)
          (fun g hg => ih (r.bound - w) (by omega) hg rfl) hcons
      refine ⟨⟨q ++ w :: l, decide (h.error = .success)⟩ :: rs, ⟨⟨g₂, ?_, hbetween⟩, ?_⟩, hprog⟩
      · refine .step hg.done ?_ hgoes
        rw [hrun]
        simp [hgen]
      · exact List.forall_mem_cons.mpr ⟨hfol, hfols⟩

/-- **A run that enters a tree goes through all of it.** -/
theorem enters (hT : T.under q = t) (hq : T.Follows q) (hlen : q.length + t.depth ≤ N)
    (hg : g.Inside q q) : Enters N T q t g := by
  induction t generalizing q g with
  | leaf =>
    refine ⟨g, [], [], rfl, ?_, ⟨⟨_, .refl _, ?_⟩, fun _ h => nomatch h⟩, ?_⟩
    · rwa [List.append_nil]
    · have hdone : (decide (q = []) && decide (0 < Tree.leaf.depth)) = false := by
        rw [Bool.and_eq_false_iff]
        exact .inr rfl
      rw [hdone]
      exact hg.between
    · rw [hg.success]
      rfl
  | node r next ih =>
    have hdepth : 1 ≤ (Tree.node r next).depth := by
      rw [Tree.depth]
      omega
    have hroot : (decide (q = []) && decide (0 < (Tree.node r next).depth)) = decide (q = []) := by
      rw [decide_eq_true (by omega : 0 < (Tree.node r next).depth), Bool.and_true]
    -- the induction hypothesis, for each value the node can take
    have hchild : ∀ w, w < r.bound → r.bad w = false → ∀ g, g.Inside (q ++ [w]) (q ++ [w]) →
        Enters N T (q ++ [w]) (next w) g := by
      intro w hw hbad g hg
      have hlt : (next w).depth + 1 ≤ (Tree.node r next).depth := Tree.depth_lt hw
      refine ih w ?_ ?_ ?_ hg
      · rw [Tree.under_append, hT]
        exact Tree.under_nil
      · rw [Tree.follows_append, hT]
        exact ⟨hq, hw, hbad, Tree.follows_nil⟩
      · rw [List.length_append, List.length_singleton]
        omega
    unfold Enters
    rw [hroot, ← leavesFrom_zero]
    rcases randomChoice_enter (r := r) hg (N := N) (by omega) with
      ⟨hnil, g', hchoice, hend⟩ | ⟨w, hw, hbad, hcons, g', hchoice, hin⟩
    · refine ⟨g', [], [], ?_, ?_, ⟨⟨_, .refl _, hend.between⟩, fun _ h => nomatch h⟩, ?_⟩
      · rw [Tree.generate, hchoice]
      · rwa [List.append_nil]
      · have hfail : decide (g'.error = .success) = false := by rw [hend.failed]; rfl
        rw [hfail, leavesFrom, hnil]
        rfl
    · obtain ⟨h, l, rs, hgen, hfol, hexp, hprog⟩ := explore_child
        (hchild w hw hbad g' hin)
        (fun g hg => explore_siblings hT hq (by omega) hchild hg) hcons
      refine ⟨h, w :: l, rs, ?_, hfol, hexp, hprog⟩
      rw [Tree.generate, hchoice]
      simp only [hgen, Option.map_some]

/-- **The exhaustive mode goes through every sequence of choices once.** The
loop ends; the programs are those of the sequences that end in a leaf, in
lexicographic order; and every run, also one that fails, is given values that
are within their bounds and not filtered out. -/
theorem goGenerator_complete (t : Tree) (hroot : t ≠ .leaf) (hdepth : t.depth ≤ N) :
    ∃ n g runs, goGenerator N t n {} = some (g, runs) ∧ g.allDone = true ∧
      (programs runs).Pairwise (List.Lex (· < ·)) ∧ (programs runs).Nodup ∧
      (∀ l, l ∈ programs runs ↔ t.Reaches l) ∧ ∀ r ∈ runs, t.Follows r.choices := by
  have hpos : 0 < t.depth := by
    cases t with
    | leaf => exact absurd rfl hroot
    | node r next =>
      rw [Tree.depth]
      omega
  have hstart : Inside [] [] {} :=
    ⟨⟨rfl, fun _ _ hi => (nomatch hi), fun _ _ => rfl⟩, rfl, rfl, rfl⟩
  obtain ⟨h, l, rs, hgen, hfol, ⟨⟨g', hgoes, hg'⟩, hfols⟩, hprog⟩ :=
    enters (T := t) (N := N) Tree.under_nil Tree.follows_nil (by simpa using hdepth) hstart
  have hdone : g'.allDone = true := by
    rw [hg'.done, decide_eq_true rfl, decide_eq_true hpos]
    rfl
  have hall : Goes N t {} (⟨l, decide (h.error = .success)⟩ :: rs) g' := .step rfl hgen hgoes
  obtain ⟨n, hn⟩ := hall.goGenerator hdone
  have hid : t.leaves.map ([] ++ ·) = t.leaves := List.map_id _
  rw [List.nil_append] at hfol hprog
  rw [hid] at hprog
  have hsorted := t.pairwise_leaves
  refine ⟨n, g', _, hn, hdone, ?_, ?_, ?_, List.forall_mem_cons.mpr ⟨hfol, hfols⟩⟩
  · rw [hprog]
    exact hsorted
  · rw [hprog]
    refine hsorted.imp fun {a b} hlt => ?_
    rintro rfl
    exact List.lex_irrefl Nat.lt_irrefl a hlt
  · rw [hprog]
    exact fun l => Tree.mem_leaves

/-- A flip of a fair coin, and where it falls on one side a filtered choice of
three that may leave another flip. -/
def sample : Tree :=
  .node ⟨2, none, none⟩ fun v =>
    if v = 0 then .leaf
    else .node ⟨3, some fun w => decide (w = 1), some [0]⟩ fun _ =>
      .node ⟨2, none, some [1]⟩ fun _ => .leaf

theorem goGenerator_sample : ∃ n g runs, goGenerator 3 sample n {} = some (g, runs) ∧
    g.allDone = true ∧ (programs runs).Pairwise (List.Lex (· < ·)) ∧ (programs runs).Nodup ∧
    (∀ l, l ∈ programs runs ↔ sample.Reaches l) ∧ ∀ r ∈ runs, sample.Follows r.choices :=
  goGenerator_complete sample nofun (by decide)

end Exhaustive

end CLSmith
