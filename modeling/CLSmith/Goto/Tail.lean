import CLSmith.Goto.PostCreation
import Mathlib.Data.List.Nodup
/-!
# The tail of a block that is deleted

The deletion loop takes the statement at its index, and next the one that is
at the same index then. Where a goto in front of the index goes as well, the
rest moves forward and a statement is passed over.
-/

namespace CLSmith

namespace Generate

open EMI

variable {M : Type}

open Classical in
/-- **A tail goes as a whole**, with some statements left in front of the index
and `passed` of those in front gone: the statement behind as many others goes,
with all that leads into it, until none is left. -/
inductive Exhausted (leads : ℕ → ℕ → Prop) : List ℕ → ℕ → List ℕ → Prop
  | done {before : List ℕ} {passed : ℕ} : Exhausted leads before passed []
  | step {before tail : List ℕ} {passed s : ℕ} (hs : tail[passed]? = some s)
      (h : Exhausted leads (before.filter fun t => ¬ leads s t)
        (passed + (before.filter fun t => leads s t).length)
        (tail.filter fun t => t ≠ s ∧ ¬ leads s t)) : Exhausted leads before passed tail

/-- **What the deletion of a tail is for**: nothing of the tail is left, in front of
it only gotos whose targets went are gone, and edges, `break_stms`,
`func->blocks` and gotos are about what is there. -/
structure TailDeleted (σ σ' : FlowGraph M) (R : ℕ → Prop) (b index : ℕ) : Prop where
  tail : ∀ t ∈ (σ.func.block b).stms.drop index, t ∉ (σ'.func.block b).stms
  earlier : ∀ t ∈ (σ.func.block b).stms.take index, t ∉ (σ'.func.block b).stms →
    ∃ test dest, (σ.func.stm t).kind = .goto test dest ∧ ¬ Present σ'.func R (.stm dest)
  cfgEdges : ∀ e ∈ σ'.cfgEdges, Present σ'.func R e.src ∧ Present σ'.func R e.dest
  break_stms : ∀ b, Within σ'.func R b → ∀ s ∈ σ'.breakStms b, Present σ'.func R (.stm s)
  blocks : ∀ b ∈ σ'.func.blocks, Within σ'.func R b
  gotos : ∀ s, Present σ'.func R (.stm s) → ∀ test dest, (σ'.func.stm s).kind = .goto test dest →
    Present σ'.func R (.stm dest)

variable {σ σ' : FlowGraph M} {R : ℕ → Prop} {b d s t : ℕ} {stms stms' : List ℕ}

/-! ## What a removal takes with it -/

/-- Nothing of a statement that is gone is there. -/
theorem not_present_of_contains (hF : IsForest σ.func R) (hsh : Shrunk σ.func σ'.func)
    (hs : s ∈ (σ.func.block (σ.func.stm s).parent).stms)
    (hgone : s ∉ (σ'.func.block (σ.func.stm s).parent).stms) {n : Node}
    (hin : σ.contains s n = true) : ¬ Present σ'.func R n := by
  have hT := hF.toIsTree
  have hblock : ∀ d, Within σ'.func R d → ¬ σ.containsBlock s d = true := by
    intro d hW
    induction hW with
    | root hd => exact hF.not_containsBlock_root hd hs
    | @nested c e u hc hu he ih =>
      have hu' := (hsh.stms c).subset hu
      rw [hsh.stm] at he
      rw [containsBlock_nested hT (owns_of_mem hT hu' he) hs, contains_stm, hT.mem c u hu']
      rintro (rfl | hin)
      · rw [hT.mem c s hu'] at hgone
        exact hgone hu
      · exact ih hin
  cases n with
  | block d => exact fun hW => hblock d hW hin
  | stm t =>
    rintro ⟨ht, hW⟩
    rw [hsh.stm] at ht hW
    rcases contains_stm.mp hin with rfl | hin
    · exact hgone ht
    · exact hblock _ hW hin

/-- A goto that is there leads to what is there. -/
theorem Tracked.goto_dest {test : M → Bool} {dest : ℕ} (h : Tracked σ R [])
    (hs : Present σ.func R (.stm s)) (hk : (σ.func.stm s).kind = .goto test dest) :
    Present σ.func R (.stm dest) := by
  obtain ⟨back, he⟩ := (h.goto s hs test dest hk).resolve_right fun ⟨_, hz, _⟩ => nomatch hz
  exact (h.edge _ he).2.1

/-- What leads into a statement that is gone is gone. -/
theorem Tracked.not_present_of_leads (h' : Tracked σ' R []) (hF : IsForest σ.func R)
    (hsh : Shrunk σ.func σ'.func) (hs : s ∈ (σ.func.block (σ.func.stm s).parent).stms)
    (hgone : s ∉ (σ'.func.block (σ.func.stm s).parent).stms) (hL : Leads σ s t) :
    ¬ Present σ'.func R (.stm t) := by
  induction hL with
  | into hk hin =>
    intro ht
    rw [← hsh.stm] at hk
    exact not_present_of_contains hF hsh hs hgone hin (h'.goto_dest ht hk)
  | step hk _ ih =>
    intro ht
    rw [← hsh.stm] at hk
    exact ih (h'.goto_dest ht hk)

/-- A part of a list that has just the elements that fulfil `p`. -/
theorem eq_filter_of_sublist {p : ℕ → Bool} (h : stms'.Sublist stms) (hnodup : stms.Nodup)
    (hmem : ∀ t ∈ stms, t ∈ stms' ↔ p t = true) : stms' = stms.filter p := by
  have hall : stms'.filter p = stms' :=
    List.filter_eq_self.mpr fun t ht => (hmem t (h.subset ht)).mp ht
  have hsub : stms'.Sublist (stms.filter p) := by
    rw [← hall]
    exact h.filter p
  have hperm : stms'.Perm (stms.filter p) := by
    refine (List.perm_ext_iff_of_nodup (h.nodup hnodup) (hnodup.filter p)).mpr fun t => ?_
    rw [List.mem_filter]
    exact ⟨fun ht => ⟨h.subset ht, (hmem t (h.subset ht)).mp ht⟩,
      fun ht => (hmem t ht.1).mpr ht.2⟩
  exact hsub.eq_of_length hperm.length_eq

open Classical in
/-- **What a removal leaves of the block**: all but the statement and what leads
into it. -/
theorem removeStmt_stms (h : Tracked σ R []) (hb : R b)
    (hs : s ∈ (σ.func.block b).stms) :
    ∃ σ', σ.removeStmt b s = some σ' ∧ Tracked σ' R [] ∧ Shrunk σ.func σ'.func ∧
      (σ'.func.block b).stms =
        (σ.func.block b).stms.filter fun t => decide (t ≠ s ∧ ¬ Leads σ s t) := by
  obtain ⟨σ', hrun, h', hrem, hnot⟩ := removeStmt_spec h (.root hb) hs
  have hsh := hrem.shrunk
  have hpar := h.forest.mem b s hs
  refine ⟨σ', hrun, h', hsh, eq_filter_of_sublist (hsh.stms b) (h.forest.nodup b) fun t ht => ?_⟩
  rw [decide_eq_true_eq]
  constructor
  · intro ht'
    have htpar := h.forest.mem b t ht
    have hpresent : Present σ'.func R (.stm t) := by
      simp only [Present]
      rw [hsh.stm, htpar]
      exact ⟨ht', .root hb⟩
    refine ⟨?_, fun hL => ?_⟩
    · rintro rfl
      exact hnot ht'
    · exact h'.not_present_of_leads h.forest hsh (by rwa [hpar]) (by rwa [hpar]) hL hpresent
  · rintro ⟨hne, hL⟩
    by_contra hgone
    exact (hrem.gone b t ht hgone).elim hne hL

/-! ## The loop -/

theorem Shrunk.leads_eq (h : Shrunk σ.func σ'.func) (hp : σ.func.ParentLt) :
    Leads σ' s t ↔ Leads σ s t := by
  refine ⟨h.leads hp, fun hL => ?_⟩
  induction hL with
  | into hk hin =>
    rw [← h.stm] at hk
    rw [← h.contains hp] at hin
    exact .into hk hin
  | step hk _ ih =>
    rw [← h.stm] at hk
    exact .step hk ih

open Classical in
theorem exhausted_step {leads : ℕ → ℕ → Prop} {before tail : List ℕ} {passed : ℕ}
    (hs : tail[passed]? = some s) : Exhausted leads before passed tail ↔
      Exhausted leads (before.filter fun t => ¬ leads s t)
        (passed + (before.filter fun t => leads s t).length)
        (tail.filter fun t => t ≠ s ∧ ¬ leads s t) := by
  constructor
  · intro h
    cases h with
    | done => cases hs
    | step hs' h =>
      obtain rfl := Option.some.inj (hs.symm.trans hs')
      exact h
  · exact .step hs

/-- Where none is behind those passed over, they stay. -/
theorem exhausted_of_none {leads : ℕ → ℕ → Prop} {before tail : List ℕ} {passed : ℕ}
    (hs : tail[passed]? = none) : Exhausted leads before passed tail ↔ tail = [] := by
  constructor
  · intro h
    cases h with
    | done => rfl
    | step hs' _ => cases hs.symm.trans hs'
  · rintro rfl
    exact .done

open Classical in
/-- **The loop deletes a tail as a whole just where the list of its statements is
exhausted.** -/
theorem deleteTailFrom_exhausted {n index passed : ℕ} {before tail : List ℕ}
    (h : Tracked σ R []) (hb : R b) (hstms : (σ.func.block b).stms = before ++ tail)
    (hlen : before.length + passed = index) (hn : (σ.func.block b).stms.length < n)
    (hrun : FlowGraph.deleteTailFrom b index n σ = some σ') :
    (∀ t ∈ tail, t ∉ (σ'.func.block b).stms) ↔ Exhausted (Leads σ) before passed tail := by
  induction n generalizing σ passed before tail with
  | zero => omega
  | succ n ih =>
    have hp := h.forest.parent_lt
    have hget : (σ.stms b)[index]? = tail[passed]? := by
      unfold FlowGraph.stms
      rw [hstms, List.getElem?_append_right (by omega)]
      congr 1
      omega
    unfold FlowGraph.deleteTailFrom at hrun
    rw [hget] at hrun
    cases hs : tail[passed]? with
    | none =>
      rw [hs] at hrun
      obtain rfl : σ = σ' := Option.some.inj hrun
      rw [exhausted_of_none hs]
      constructor
      · intro hnone
        refine List.eq_nil_iff_forall_not_mem.mpr fun t ht => hnone t ht ?_
        rw [hstms]
        exact List.mem_append_right _ ht
      · rintro rfl
        exact fun t ht => absurd ht List.not_mem_nil
    | some s =>
      have hmem : s ∈ (σ.func.block b).stms := by
        rw [hstms]
        exact List.mem_append_right _ (List.mem_of_getElem? hs)
      obtain ⟨σ₁, hrem, h₁, hsh, hstms₁⟩ := removeStmt_stms h hb hmem
      rw [hs] at hrun
      dsimp only at hrun
      rw [hrem, Option.bind_some] at hrun
      -- the statement itself is not in front
      have hbefore : before.filter (fun t => decide (t ≠ s ∧ ¬ Leads σ s t)) =
          before.filter fun t => decide (¬ Leads σ s t) := by
        refine List.filter_congr fun t ht => ?_
        have hnodup := h.forest.nodup b
        rw [hstms] at hnodup
        have hne : t ≠ s :=
          (List.nodup_append.mp hnodup).2.2 t ht s (List.mem_of_getElem? hs)
        simp [hne]
      rw [hstms, List.filter_append, hbefore] at hstms₁
      have hcount : (before.filter fun t => decide (¬ Leads σ s t)).length +
          (before.filter fun t => decide (Leads σ s t)).length = before.length := by
        have hadd := List.length_eq_length_filter_add (l := before) fun t => decide (Leads σ s t)
        simp only [decide_not]
        omega
      have hlt : (σ₁.func.block b).stms.length < (σ.func.block b).stms.length := by
        have htail : (tail.filter fun t => decide (t ≠ s ∧ ¬ Leads σ s t)).length <
            tail.length := by
          refine List.length_filter_lt_length_iff_exists.mpr ⟨s, List.mem_of_getElem? hs, ?_⟩
          simp
        rw [hstms₁, hstms, List.length_append, List.length_append]
        omega
      have hleads : Leads σ₁ = Leads σ := by
        funext u t
        exact propext (hsh.leads_eq hp)
      have hlen₁ : (before.filter fun t => decide (¬ Leads σ s t)).length +
          (passed + (before.filter fun t => decide (Leads σ s t)).length) = index := by omega
      have hrest := ih h₁ hstms₁ hlen₁ (by omega) hrun
      rw [hleads] at hrest
      rw [exhausted_step hs, ← hrest]
      constructor
      · exact fun hall t ht => hall t (List.mem_filter.mp ht).1
      · intro hall t ht hin
        refine hall t (List.mem_filter.mpr ⟨ht, ?_⟩) hin
        -- a statement left at the end was left by the first removal
        have hn₁ : (σ₁.func.block b).stms.length < n := by omega
        obtain ⟨σ₂, hrun₂, -, hrem₂, -⟩ := deleteTailFrom_spec index h₁ hb hn₁
        obtain rfl := Option.some.inj (hrun₂.symm.trans hrun)
        have hleft := (hrem₂.shrunk.stms b).subset hin
        rw [hstms₁] at hleft
        rcases List.mem_append.mp hleft with hfront | htail
        · have hnodup := h.forest.nodup b
          rw [hstms] at hnodup
          exact absurd rfl ((List.nodup_append.mp hnodup).2.2 t (List.mem_filter.mp hfront).1 t ht)
        · exact (List.mem_filter.mp htail).2

/-- **The deletion of a tail** ends, and leaves edges, `break_stms`, `func->blocks`
and gotos about what is there; it takes only gotos whose targets went from in
front of the index. It takes the whole tail just where no statement is passed
over for good: those of the tail are exhausted, one after the other from where
the gotos that went have moved the index to. -/
theorem deleteTail_tailDeleted (σ : FlowGraph M) (R : ℕ → Prop) (b index : ℕ)
    (h : Tracked σ R []) (hb : R b) :
    ∃ σ', σ.deleteTail b index = some σ' ∧ (TailDeleted σ σ' R b index ↔
      Exhausted (Leads σ) ((σ.func.block b).stms.take index)
        (index - (σ.func.block b).stms.length) ((σ.func.block b).stms.drop index)) := by
  obtain ⟨σ', hrun, h', hrem, -⟩ := deleteTail_spec index h hb
  have hlen : ((σ.func.block b).stms.take index).length +
      (index - (σ.func.block b).stms.length) = index := by
    rw [List.length_take]
    omega
  have hiff := deleteTailFrom_exhausted h hb (List.take_append_drop _ _).symm hlen
    (Nat.lt_succ_self _) hrun
  refine ⟨σ', hrun, fun hdel => hiff.mp hdel.tail, fun hex => ⟨hiff.mpr hex, ?_, ?_, ?_, ?_, ?_⟩⟩
  · intro t ht hgone
    have htb := List.mem_of_mem_take ht
    obtain ⟨s, hs, hsgone, hst⟩ := hrem.gone b t htb hgone
    have hsb := List.mem_of_mem_drop hs
    have hpar := h.forest.mem b s hsb
    have hnodup := h.forest.nodup b
    rw [← List.take_append_drop index (σ.func.block b).stms] at hnodup
    have hne : t ≠ s := (List.nodup_append.mp hnodup).2.2 t ht s hs
    have hs' : s ∈ (σ.func.block (σ.func.stm s).parent).stms := by rwa [hpar]
    have hsgone' : s ∉ (σ'.func.block (σ.func.stm s).parent).stms := by rwa [hpar]
    cases hst.resolve_left hne with
    | into hk hin =>
      exact ⟨_, _, hk, not_present_of_contains h.forest hrem.shrunk hs' hsgone' hin⟩
    | step hk hL =>
      exact ⟨_, _, hk, h'.not_present_of_leads h.forest hrem.shrunk hs' hsgone' hL⟩
  · exact fun e he => ⟨(h'.edge e he).1, (h'.edge e he).2.1⟩
  · exact fun c hW s hs => (h'.break_stms c s hs).2.2 hW
  · exact h'.blocks
  · exact fun s hs test dest hk => h'.goto_dest hs hk

/-- A tail into which nothing in front of it leads goes as a whole. -/
theorem exhausted_of_before {leads : ℕ → ℕ → Prop} {before tail : List ℕ}
    (h : ∀ t ∈ before, ∀ s ∈ tail, ¬ leads s t) : Exhausted leads before 0 tail := by
  classical
  induction hn : tail.length using Nat.strong_induction_on generalizing tail with
  | _ n ih =>
    cases tail with
    | nil => exact .done
    | cons s rest =>
      have hs : ∀ t ∈ before, ¬ leads s t := fun t ht => h t ht s List.mem_cons_self
      have hkeep : before.filter (fun t => decide (¬ leads s t)) = before :=
        List.filter_eq_self.mpr fun t ht => by simpa using hs t ht
      have hnone : before.filter (fun t => decide (leads s t)) = [] :=
        List.filter_eq_nil_iff.mpr fun t ht => by simpa using hs t ht
      have hsub := List.filter_sublist (p := fun t => decide (t ≠ s ∧ ¬ leads s t))
        (l := s :: rest)
      have hlt : ((s :: rest).filter fun t => decide (t ≠ s ∧ ¬ leads s t)).length < n := by
        rw [← hn]
        exact List.length_filter_lt_length_iff_exists.mpr ⟨s, List.mem_cons_self, by simp⟩
      refine (exhausted_step rfl).mpr ?_
      rw [hkeep, hnone]
      exact ih _ hlt (fun t ht u hu => h t ht u (hsub.subset hu)) rfl

/-- The if behind a loop and a goto goes, and nothing else. -/
theorem deleteTail_loopThenReturn : ∃ σ', loopThenReturn.deleteTail 0 2 = some σ' ∧
    TailDeleted loopThenReturn σ' (· = 0) 0 2 := by
  obtain ⟨σ', hrun, hiff⟩ :=
    deleteTail_tailDeleted loopThenReturn (· = 0) 0 2 loopThenReturn_tracked rfl
  refine ⟨σ', hrun, hiff.mpr (exhausted_of_before ?_)⟩
  have hno : ¬ Leads loopThenReturn 4 0 := by
    intro hL
    cases hL with
    | into hk _ => cases hk
    | step hk _ => cases hk
  intro t ht s hs hL
  obtain rfl := List.mem_singleton.mp hs
  have ht : t ∈ [0, 3] := ht
  simp only [List.mem_cons, List.not_mem_nil, or_false] at ht
  rcases ht with rfl | rfl
  · exact hno hL
  · cases hL with
    | into hk hin =>
      cases hk
      exact absurd hin (by decide)
    | step hk hL =>
      cases hk
      exact hno hL

/-- A goto to the statement behind it, which was put behind an assignment. -/
def gotoNext : FlowGraph Unit :=
  flatBody [.simple id, .goto (fun _ => true) 2, .simple id, .simple id]
    [⟨.stm 1, .stm 2, false, false⟩]

theorem gotoNext_tracked : Tracked gotoNext (· = 0) [] := by
  refine flatBody_tracked ⟨?_, ?_, ?_⟩
  · intro k hk
    simp only [List.mem_cons, List.not_mem_nil, or_false] at hk
    rcases hk with rfl | rfl | rfl | rfl
    all_goals
      refine ⟨rfl, fun _ h => ?_⟩
      cases h
  · intro e he
    obtain rfl := List.mem_singleton.mp he
    exact ⟨1, 2, _, rfl, rfl, by decide, by decide, rfl⟩
  · intro s hs test dest hk
    rcases s with _ | _ | _ | _ | s
    · cases hk
    · cases hk
      exact ⟨false, by decide⟩
    · cases hk
    · cases hk
    · cases hk

/-- Deleted from its target on, the goto goes too, and the last statement stays. -/
theorem gotoNext_not_tailDeleted : Tracked gotoNext (· = 0) [] ∧
    ∃ σ', gotoNext.deleteTail 0 2 = some σ' ∧ (σ'.func.block 0).stms = [0, 3] ∧
      ¬ TailDeleted gotoNext σ' (· = 0) 0 2 := by
  refine ⟨gotoNext_tracked, ?_⟩
  have hleft : (gotoNext.deleteTail 0 2).map (fun σ => (σ.func.block 0).stms) = some [0, 3] := by
    decide
  obtain ⟨σ', hrun, hstms⟩ := Option.map_eq_some_iff.mp hleft
  refine ⟨σ', hrun, hstms, fun h => h.tail 3 (by decide) ?_⟩
  rw [hstms]
  exact List.mem_cons_of_mem _ List.mem_cons_self

end Generate

end CLSmith
