import CLSmith.Goto.Remove
import CLSmith.Goto.Wellformed
import CLSmith.EMI.Execution
/-!
# What must return does

Control that is in a block which must return never comes to its end. Such a
block has a return, or an if with two such branches, as its last statement
before anything dead; what control could skip it by are the continues of a
loop, which have edges, and jumps into the dead part behind a return.
-/

namespace CLSmith

namespace Generate

open EMI

variable {M : Type}

/-- Any number of steps inside a function; every test may have any outcome at
any time, as the memory may change in between. -/
def Runs (f : Func M) : Loc → Loc → Prop :=
  Relation.ReflTransGen fun l l' => ∃ m m', LocalStep f m l m' l'

/-- Control is at the end of a statement: it goes on behind one that has no
blocks, or is at the end of a block of it. -/
def AtEnd (f : Func M) (s : ℕ) (l : Loc) : Prop :=
  ((f.stm s).kind.blocks = [] ∧ l = .before s ∧ ∃ m m', LocalStep f m l m' (after f s)) ∨
    ∃ b ∈ (f.stm s).kind.blocks, l = .endOf b

/-- The statements of a block up to its first return. -/
def front (f : Func M) : List ℕ → List ℕ
  | [] => []
  | s :: rest => if f.isReturn s then [s] else s :: front f rest

/-- The blocks inside those of `R`, which is the body of the function, or all
blocks that wait for their statements. -/
inductive Within (f : Func M) (R : ℕ → Prop) : ℕ → Prop
  | root {c : ℕ} (h : R c) : Within f R c
  | nested {c d s : ℕ} (hc : Within f R c) (hs : s ∈ (f.block c).stms)
      (hd : d ∈ (f.stm s).kind.blocks) : Within f R d

/-- The blocks inside `r` that are not behind a return. -/
inductive Live (f : Func M) (r : ℕ) : ℕ → Prop
  | self : Live f r r
  | nested {c d s : ℕ} (hc : Live f r c) (hs : s ∈ front f (f.block c).stms)
      (hd : d ∈ (f.stm s).kind.blocks) : Live f r d

/-- **The statements form a tree**: each is in one block, once, and a block is in
one statement, which for loop bodies is a for. -/
structure IsTree (f : Func M) : Prop where
  parent_lt : f.ParentLt
  mem : ∀ c, ∀ s ∈ (f.block c).stms, (f.stm s).parent = c
  nodup : ∀ c, (f.block c).stms.Nodup
  nested : ∀ s d, Owns f s d → (f.block d).parent = some (f.stm s).parent
  owner : ∀ s s' d, Owns f s d → Owns f s' d → s = s'
  loop : ∀ s d, Owns f s d → (f.block d).role = .loop →
    ∃ init test incr, (f.stm s).kind = .forLoop init test incr d

/-- Every continue inside has its edge. -/
def ContinuesRecorded (σ : FlowGraph M) (R : ℕ → Prop) : Prop :=
  ∀ c, Within σ.func R c → ∀ s ∈ (σ.func.block c).stms, ∀ test l, (σ.func.stm s).kind = .cont test →
    loopBody σ.func s = some l → (⟨.stm s, .block l, false, true⟩ : CFGEdge) ∈ σ.cfgEdges

/-- The statement is inside `b` and not behind a return there. -/
def LiveIn (f : Func M) (b s : ℕ) : Prop :=
  Live f b (f.stm s).parent ∧ s ∈ front f (f.block (f.stm s).parent).stms

/-- **No goto leads behind a return** of a block around its target, other than
from behind a return of that block; and every goto leads into the tree. -/
def NoGotoBehind (f : Func M) (r : ℕ) : Prop :=
  ∀ c, Within f (· = r) c → ∀ s ∈ (f.block c).stms, ∀ test dest, (f.stm s).kind = .goto test dest →
    dest ∈ (f.block (f.stm dest).parent).stms ∧ Within f (· = r) (f.stm dest).parent ∧
      ∀ b ∈ f.chain (f.stm dest).parent, ¬ LiveIn f b dest → b ∈ f.chain c ∧ ¬ LiveIn f b s

/-- The gotos inside `r` lead to statements that are not behind a return. -/
def GotosLive (f : Func M) (r : ℕ) : Prop :=
  ∀ c, Within f (· = r) c → ∀ s ∈ (f.block c).stms, ∀ test dest,
    (f.stm s).kind = .goto test dest → LiveIn f r dest

variable {f : Func M} {σ : FlowGraph M} {r b c d s t : ℕ} {l l' : Loc} {stms : List ℕ}

/-! ## The front of a block -/

theorem front_subset : ∀ s ∈ front f stms, s ∈ stms := by
  induction stms with
  | nil => exact fun s hs => hs
  | cons x stms ih =>
    intro s hs
    rw [front] at hs
    split at hs
    · rw [List.mem_singleton.mp hs]
      exact List.mem_cons_self
    · rcases List.mem_cons.mp hs with rfl | hs
      · exact List.mem_cons_self
      · exact List.mem_cons_of_mem _ (ih s hs)

/-- Whatever is behind a statement of the front that is no return. -/
theorem front_cases {rest : List ℕ} (hnodup : stms.Nodup) (hs : s ∈ front f stms)
    (hret : f.isReturn s = false) (h : stms.dropWhile (· ≠ s) = s :: rest) :
    (rest = [] → stms.find? f.isReturn = none ∧ stms.getLast? = some s) ∧
      ∀ t ts, rest = t :: ts → t ∈ front f stms := by
  induction stms with
  | nil => cases hs
  | cons x stms ih =>
    obtain ⟨hx, hnodup⟩ := List.nodup_cons.mp hnodup
    by_cases hxs : x = s
    · subst hxs
      -- The statement is the first one: what follows it is the rest of the block.
      rw [List.dropWhile_cons_of_neg (by simp)] at h
      obtain rfl : stms = rest := by simpa using h
      rw [front, hret]
      refine ⟨?_, ?_⟩
      · rintro rfl
        simp [hret]
      · rintro t ts rfl
        rw [if_neg (by simp), front]
        split
        · simp
        · simp
    · rw [List.dropWhile_cons_of_pos (by simp [hxs])] at h
      rw [front] at hs
      split at hs
      · exact absurd (List.mem_singleton.mp hs).symm hxs
      · next hxret =>
        have hs : s ∈ front f stms := (List.mem_cons.mp hs).resolve_left (Ne.symm hxs)
        obtain ⟨hlast, hnext⟩ := ih hnodup hs h
        refine ⟨fun hrest => ?_, fun t ts hrest => ?_⟩
        · obtain ⟨hfind, hl⟩ := hlast hrest
          have hne : stms ≠ [] := fun hnil => by rw [hnil] at hs; cases hs
          refine ⟨?_, ?_⟩
          · rw [List.find?_cons_of_neg hxret, hfind]
          · rw [List.getLast?_cons_of_ne_nil hne, hl]
        · rw [front, if_neg hxret]
          exact List.mem_cons_of_mem _ (hnext t ts hrest)

/-! ## Blocks inside a block -/

theorem Within.of_live (h : Live f r c) : Within f (· = r) c := by
  induction h with
  | self => exact .root rfl
  | nested _ hs hd ih => exact ih.nested (front_subset _ hs) hd

theorem owns_of_mem (hT : IsTree f) (hs : s ∈ (f.block c).stms) (hd : d ∈ (f.stm s).kind.blocks) :
    Owns f s d := by
  unfold Owns
  rw [hT.mem c s hs]
  exact ⟨hs, hd⟩

theorem chain_nested (hT : IsTree f) (ho : Owns f s d) :
    f.chain d = d :: f.chain (f.stm s).parent :=
  Func.chain_of_parent hT.parent_lt (hT.nested s d ho)

/-- A live block is live in every block around it. -/
theorem Live.of_chain (hT : IsTree f) (hr : (f.block r).parent = none) (h : Live f r c)
    (hb : b ∈ f.chain c) : Live f b c := by
  induction h with
  | self =>
    rw [Func.chain_of_none hr] at hb
    rw [List.mem_singleton.mp hb]
    exact .self
  | @nested c d s _ hs hd ih =>
    have ho := owns_of_mem hT (front_subset s hs) hd
    rw [chain_nested hT ho, hT.mem c s (front_subset s hs)] at hb
    rcases List.mem_cons.mp hb with rfl | hb
    · exact .self
    · exact (ih hb).nested hs hd

/-- The blocks around a live block, up to the one it is live in, are live. -/
theorem Live.up (hT : IsTree f) (h : Live f b c) (hd : d ∈ f.chain c) (hb : b ∈ f.chain d) :
    Live f b d := by
  induction h with
  | self =>
    -- a chain goes up, so the two are one block
    have h1 := Func.lt_of_mem_chain hT.parent_lt hd
    have h2 := Func.lt_of_mem_chain hT.parent_lt hb
    obtain rfl : d = b := by omega
    exact .self
  | @nested c e s hc hs he ih =>
    have ho := owns_of_mem hT (front_subset s hs) he
    rw [chain_nested hT ho, hT.mem c s (front_subset s hs)] at hd
    rcases List.mem_cons.mp hd with rfl | hd
    · exact hc.nested hs he
    · exact ih hd

/-- A live block inside another is in a statement of a live front. -/
theorem Live.owner (hT : IsTree f) (h : Live f b d) (hne : d ≠ b) (ho : Owns f s d) :
    Live f b (f.stm s).parent ∧ s ∈ front f (f.block (f.stm s).parent).stms := by
  cases h with
  | self => exact absurd rfl hne
  | @nested c _ s' hc hs' hd =>
    have hmem := front_subset s' hs'
    obtain rfl := hT.owner s s' d ho (owns_of_mem hT hmem hd)
    rw [hT.mem c s hmem]
    exact ⟨hc, hs'⟩

theorem Within.chain (hT : IsTree f) (hr : (f.block r).parent = none)
    (h : Within f (· = r) c) (hd : d ∈ f.chain c) : Within f (· = r) d := by
  induction h with
  | root hc =>
    subst hc
    rw [Func.chain_of_none hr] at hd
    exact .root (List.mem_singleton.mp hd)
  | @nested c e s hc hs he ih =>
    rw [chain_nested hT (owns_of_mem hT hs he), hT.mem c s hs] at hd
    rcases List.mem_cons.mp hd with rfl | hd
    · exact hc.nested hs he
    · exact ih hd

theorem GotosLive.noGotoBehind (hT : IsTree f) (hr : (f.block r).parent = none)
    (h : GotosLive f r) : NoGotoBehind f r := by
  intro c hW s hs test dest hk
  obtain ⟨hlive, hfront⟩ := h c hW s hs test dest hk
  exact ⟨front_subset _ hfront, .of_live hlive,
    fun b hb hnot => absurd ⟨hlive.of_chain hT hr hb, hfront⟩ hnot⟩

/-! ## What must return -/

/-- A statement must return, by some depth of the search. -/
def StmReturns (σ : FlowGraph M) (s : ℕ) : Prop := ∃ n, σ.stmMustReturnFrom n s = true

/-- A block must return, by some depth of the search. -/
def BlockReturns (σ : FlowGraph M) (b : ℕ) : Prop :=
  ∃ n, σ.blockMustReturn (σ.stmMustReturnFrom n) b = true

theorem StmReturns.cases (h : StmReturns σ s) : (σ.func.stm s).kind = .ret ∨
    ∃ test t e, (σ.func.stm s).kind = .ifElse test t e ∧ BlockReturns σ t ∧ BlockReturns σ e := by
  obtain ⟨n, h⟩ := h
  cases n with
  | zero => cases h
  | succ n =>
    unfold FlowGraph.stmMustReturnFrom FlowGraph.kind at h
    split at h
    · next hk => exact .inl hk
    · next test t e hk =>
      obtain ⟨ht, he⟩ := Bool.and_eq_true_iff.mp h
      exact .inr ⟨test, t, e, hk, ⟨n, ht⟩, ⟨n, he⟩⟩
    · cases h

theorem BlockReturns.last (h : BlockReturns σ b) :
    ∃ s, σ.func.getLastStm b = some s ∧ StmReturns σ s := by
  obtain ⟨n, h⟩ := h
  simp only [FlowGraph.blockMustReturn, Bool.and_eq_true] at h
  have hlast := h.1.2
  cases hs : σ.func.getLastStm b with
  | none =>
    rw [hs] at hlast
    cases hlast
  | some s =>
    rw [hs] at hlast
    exact ⟨s, rfl, n, hlast⟩

/-- No continue leads to the end of a block that must return. -/
theorem BlockReturns.no_back (h : BlockReturns σ b) :
    (⟨.stm s, .block b, false, true⟩ : CFGEdge) ∉ σ.cfgEdges := by
  obtain ⟨n, h⟩ := h
  simp only [FlowGraph.blockMustReturn, Bool.and_eq_true, List.all_eq_true] at h
  intro he
  have hback : (⟨.stm s, .block b, false, true⟩ : CFGEdge) ∈ σ.backEdges b := by
    unfold FlowGraph.backEdges
    rw [List.mem_filter]
    exact ⟨he, by simp⟩
  simpa using h.2 _ hback

/-! ## Where control can be -/

/-- **Control keeps to the tree**; while it is in the block `b` it is not behind a
return, and not at the end of a block that must return. -/
def Holds (σ : FlowGraph M) (r b : ℕ) : Loc → Prop
  | .before s => s ∈ (σ.func.block (σ.func.stm s).parent).stms ∧
      Within σ.func (· = r) (σ.func.stm s).parent ∧
      (b ∈ σ.func.chain (σ.func.stm s).parent → Live σ.func b (σ.func.stm s).parent ∧
        s ∈ front σ.func (σ.func.block (σ.func.stm s).parent).stms)
  | .endOf c => Within σ.func (· = r) c ∧
      (b ∈ σ.func.chain c → Live σ.func b c ∧ ¬ BlockReturns σ c)

theorem holds_enter (hT : IsTree σ.func) (hW : Within σ.func (· = r) d)
    (hL : b ∈ σ.func.chain d → Live σ.func b d) : Holds σ r b (enter σ.func d) := by
  unfold enter
  split
  · next s rest hs =>
    have hmem : s ∈ (σ.func.block d).stms := hs ▸ List.mem_cons_self
    refine ⟨?_, ?_, ?_⟩
    · rwa [hT.mem d s hmem]
    · rwa [hT.mem d s hmem]
    · rw [hT.mem d s hmem]
      refine fun hb => ⟨hL hb, ?_⟩
      rw [hs, front]
      split
      · simp
      · simp
  · next hnil =>
    refine ⟨hW, fun hb => ⟨hL hb, fun hret => ?_⟩⟩
    obtain ⟨s, hs, -⟩ := hret.last
    unfold Func.getLastStm at hs
    rw [hnil] at hs
    cases hs

theorem dropWhile_mem (h : s ∈ stms) : ∃ rest, stms.dropWhile (· ≠ s) = s :: rest := by
  induction stms with
  | nil => cases h
  | cons x stms ih =>
    by_cases hx : x = s
    · exact ⟨stms, by rw [List.dropWhile_cons_of_neg (by simp [hx]), hx]⟩
    · obtain ⟨rest, hrest⟩ := ih ((List.mem_cons.mp h).resolve_left (Ne.symm hx))
      exact ⟨rest, by rw [List.dropWhile_cons_of_pos (by simp [hx]), hrest]⟩

theorem holds_after (hT : IsTree σ.func) (hs : s ∈ (σ.func.block (σ.func.stm s).parent).stms)
    (hW : Within σ.func (· = r) (σ.func.stm s).parent)
    (hL : b ∈ σ.func.chain (σ.func.stm s).parent → Live σ.func b (σ.func.stm s).parent ∧
      s ∈ front σ.func (σ.func.block (σ.func.stm s).parent).stms ∧
      σ.func.isReturn s = false ∧ ¬ StmReturns σ s) : Holds σ r b (after σ.func s) := by
  obtain ⟨rest, hrest⟩ := dropWhile_mem hs
  have hnodup := hT.nodup (σ.func.stm s).parent
  unfold after
  rw [hrest]
  cases rest with
  | nil =>
    refine ⟨hW, fun hb => ?_⟩
    obtain ⟨hlive, hfront, hret, hnot⟩ := hL hb
    refine ⟨hlive, fun hblock => ?_⟩
    -- the statement is the last one, and no return is before it
    obtain ⟨hfind, hlast⟩ := (front_cases hnodup hfront hret hrest).1 rfl
    obtain ⟨u, hu, hur⟩ := hblock.last
    unfold Func.getLastStm at hu
    rw [hfind] at hu
    obtain rfl : s = u := Option.some.inj (hlast.symm.trans hu)
    exact hnot hur
  | cons t ts =>
    have hmem : t ∈ (σ.func.block (σ.func.stm s).parent).stms := by
      have hin : t ∈ (σ.func.block (σ.func.stm s).parent).stms.dropWhile (· ≠ s) := by
        rw [hrest]
        simp
      exact List.dropWhile_subset _ hin
    have hpar := hT.mem _ t hmem
    refine ⟨?_, ?_, ?_⟩
    · rwa [hpar]
    · rwa [hpar]
    · rw [hpar]
      intro hb
      obtain ⟨hlive, hfront, hret, -⟩ := hL hb
      exact ⟨hlive, (front_cases hnodup hfront hret hrest).2 t ts rfl⟩

/-- A statement that is neither a return nor an if need not return. -/
theorem not_stmReturns (hret : (σ.func.stm s).kind ≠ .ret)
    (hif : ∀ test t e, (σ.func.stm s).kind ≠ .ifElse test t e) :
    σ.func.isReturn s = false ∧ ¬ StmReturns σ s := by
  refine ⟨?_, fun h => ?_⟩
  · unfold Func.isReturn
    split
    · next hk => exact absurd hk hret
    · rfl
  · rcases h.cases with hk | ⟨test, t, e, hk, -⟩
    · exact hret hk
    · exact hif test t e hk

/-- Control goes on behind a statement it came to, and that does not return. -/
theorem Holds.after (hT : IsTree σ.func) (h : Holds σ r b (.before s))
    (hret : (σ.func.stm s).kind ≠ .ret)
    (hif : ∀ test t e, (σ.func.stm s).kind ≠ .ifElse test t e) :
    Holds σ r b (EMI.after σ.func s) := by
  obtain ⟨hs, hW, hL⟩ := h
  exact holds_after hT hs hW fun hb =>
    ⟨(hL hb).1, (hL hb).2, (not_stmReturns hret hif).1, (not_stmReturns hret hif).2⟩

/-- Control enters a block of a statement it came to. -/
theorem Holds.enter (hT : IsTree σ.func) (h : Holds σ r b (.before s))
    (hd : d ∈ (σ.func.stm s).kind.blocks) : Holds σ r b (EMI.enter σ.func d) := by
  obtain ⟨hs, hW, hL⟩ := h
  refine holds_enter hT (hW.nested hs hd) fun hb => ?_
  rw [chain_nested hT ⟨hs, hd⟩] at hb
  rcases List.mem_cons.mp hb with rfl | hb
  · exact .self
  · exact (hL hb).1.nested (hL hb).2 hd

/-- Control goes on behind the statement a block is in. -/
theorem holds_afterOwner (hT : IsTree σ.func) (ho : Owns σ.func s d) (hW : Within σ.func (· = r) d)
    (hr : (σ.func.block r).parent = none) (hL : b ∈ σ.func.chain d → Live σ.func b d)
    (hret : b ∈ σ.func.chain d → d ≠ b → σ.func.isReturn s = false ∧ ¬ StmReturns σ s) :
    Holds σ r b (after σ.func s) := by
  have hchain := chain_nested hT ho
  refine holds_after hT ho.1 (hW.chain hT hr (by rw [hchain]; simp [Func.mem_chain_self]))
    fun hb => ?_
  have hin : b ∈ σ.func.chain d := by
    rw [hchain]
    exact List.mem_cons_of_mem _ hb
  have hlt := hT.parent_lt d _ (hT.nested s d ho)
  have hle := Func.lt_of_mem_chain hT.parent_lt hb
  have hne : d ≠ b := by omega
  obtain ⟨hlive, hfront⟩ := (hL hin).owner hT hne ho
  exact ⟨hlive, hfront, (hret hin hne).1, (hret hin hne).2⟩

/-- **A step keeps control where it can be.** -/
theorem Holds.step (hT : IsTree σ.func) (hr : (σ.func.block r).parent = none)
    (hc : ContinuesRecorded σ (· = r)) (hg : NoGotoBehind σ.func r) {m m' : M}
    (h : Holds σ r b l) (hs : LocalStep σ.func m l m' l') : Holds σ r b l' := by
  cases hs with
  | simple hk => exact h.after hT (by simp [hk]) (by simp [hk])
  | brkPassed hk _ => exact h.after hT (by simp [hk]) (by simp [hk])
  | contPassed hk _ => exact h.after hT (by simp [hk]) (by simp [hk])
  | gotoPassed hk _ => exact h.after hT (by simp [hk]) (by simp [hk])
  | @brkTaken s test d s' hk _ hl ho =>
    obtain ⟨-, hW, hL⟩ := h
    have hd := List.mem_of_find?_eq_some hl
    have hrole : (σ.func.block d).role = .loop := by simpa using List.find?_some hl
    obtain ⟨init, test', incr, hfor⟩ := hT.loop s' d ho hrole
    have hsub := Func.chain_subset hT.parent_lt hd
    exact holds_afterOwner hT ho (hW.chain hT hr hd) hr
      (fun hb => (hL (hsub hb)).1.up hT hd hb)
      fun _ _ => not_stmReturns (by simp [hfor]) (by simp [hfor])
  | @contTaken s test d hk _ hl =>
    obtain ⟨hmem, hW, hL⟩ := h
    have hd := List.mem_of_find?_eq_some hl
    have hsub := Func.chain_subset hT.parent_lt hd
    refine ⟨hW.chain hT hr hd, fun hb => ⟨(hL (hsub hb)).1.up hT hd hb, fun hret => ?_⟩⟩
    exact hret.no_back (hc _ hW s hmem test d hk hl)
  | @gotoTaken s test dest hk _ =>
    obtain ⟨hmem, hW, hL⟩ := h
    obtain ⟨hdest, hWd, hbehind⟩ := hg _ hW s hmem test dest hk
    refine ⟨hdest, hWd, fun hb => ?_⟩
    by_contra hnot
    exact (hbehind b hb hnot).2 (hL (hbehind b hb hnot).1)
  | @ifElse s test t e hk =>
    refine h.enter hT ?_
    rw [hk]
    simp only [Kind.blocks]
    split <;> simp
  | @forLoop s init test incr d hk =>
    split
    · exact h.enter hT (by rw [hk]; simp [Kind.blocks])
    · exact h.after hT (by simp [hk]) (by simp [hk])
  | @emi s i j t e res hk _ =>
    refine h.enter hT ?_
    rw [hk]
    simp only [Kind.blocks]
    split <;> simp
  | @endBranch s test t e d hk ho =>
    obtain ⟨hW, hL⟩ := h
    refine holds_afterOwner hT ho hW hr (fun hb => (hL hb).1) fun hb _ => ⟨?_, fun hret => ?_⟩
    · simp [Func.isReturn, hk]
    · -- one of the branches has been run to its end
      rcases hret.cases with hk' | ⟨test', t', e', hk', ht, he⟩
      · rw [hk] at hk'
        cases hk'
      · rw [hk] at hk'
        cases hk'
        have hd := ho.2
        rw [hk] at hd
        simp only [Kind.blocks, List.mem_cons, List.not_mem_nil, or_false] at hd
        rcases hd with rfl | rfl
        · exact (hL hb).2 ht
        · exact (hL hb).2 he
  | @endEmi s i j t e d hk ho =>
    obtain ⟨hW, hL⟩ := h
    exact holds_afterOwner hT ho hW hr (fun hb => (hL hb).1)
      fun _ _ => not_stmReturns (by simp [hk]) (by simp [hk])
  | @endLoop s init test incr d hk ho =>
    obtain ⟨hW, hL⟩ := h
    split
    · exact holds_enter hT hW fun hb => (hL hb).1
    · exact holds_afterOwner hT ho hW hr (fun hb => (hL hb).1)
        fun _ _ => not_stmReturns (by simp [hk]) (by simp [hk])

theorem Holds.runs (hT : IsTree σ.func) (hr : (σ.func.block r).parent = none)
    (hc : ContinuesRecorded σ (· = r)) (hg : NoGotoBehind σ.func r) (h : Holds σ r b l)
    (hruns : Runs σ.func l l') : Holds σ r b l' := by
  induction hruns with
  | refl => exact h
  | tail _ hstep ih =>
    obtain ⟨m, m', hstep⟩ := hstep
    exact ih.step hT hr hc hg hstep

/-- **Control that enters a block which must return does not come to its end**,
and so not to the next iteration of a loop. -/
theorem blockReturns_sound (hT : IsTree σ.func) (hr : (σ.func.block r).parent = none)
    (hc : ContinuesRecorded σ (· = r)) (hg : NoGotoBehind σ.func r) (hW : Within σ.func (· = r) b)
    (hret : BlockReturns σ b) (hruns : Runs σ.func (enter σ.func b) l) : l ≠ .endOf b := by
  rintro rfl
  have hstart : Holds σ r b (enter σ.func b) := holds_enter hT hW fun _ => .self
  exact ((hstart.runs hT hr hc hg hruns).2 Func.mem_chain_self).2 hret

/-- No step inside the function leads on from a return. -/
theorem not_step_of_ret {f : Func M} {m m' : M} (hk : (f.stm s).kind = .ret) :
    ¬ LocalStep f m (.before s) m' l := by
  intro h
  cases h with
  | simple h => rw [hk] at h; cases h
  | brkTaken h => rw [hk] at h; cases h
  | brkPassed h => rw [hk] at h; cases h
  | contTaken h => rw [hk] at h; cases h
  | contPassed h => rw [hk] at h; cases h
  | gotoTaken h => rw [hk] at h; cases h
  | gotoPassed h => rw [hk] at h; cases h
  | ifElse h => rw [hk] at h; cases h
  | forLoop h => rw [hk] at h; cases h
  | emi h => rw [hk] at h; cases h

/-- **Control that comes to a statement which must return does not come to the
end of it.** -/
theorem stmReturns_sound (hT : IsTree σ.func) (hr : (σ.func.block r).parent = none)
    (hc : ContinuesRecorded σ (· = r)) (hg : NoGotoBehind σ.func r) (hW : Within σ.func (· = r) c)
    (hs : s ∈ (σ.func.block c).stms) (hret : StmReturns σ s)
    (hruns : Runs σ.func (.before s) l) : ¬ AtEnd σ.func s l := by
  rintro (⟨hblocks, rfl, m, m', hstep⟩ | ⟨d, hd, rfl⟩)
  · -- a statement without blocks that must return is a return
    rcases hret.cases with hk | ⟨test, t, e, hk, -⟩
    · exact not_step_of_ret hk hstep
    · rw [hk] at hblocks
      cases hblocks
  · have ho := owns_of_mem hT hs hd
    have hblock : BlockReturns σ d := by
      rcases hret.cases with hk | ⟨test, t, e, hk, ht, he⟩
      · rw [hk] at hd
        cases hd
      · rw [hk] at hd
        simp only [Kind.blocks, List.mem_cons, List.not_mem_nil, or_false] at hd
        rcases hd with rfl | rfl
        · exact ht
        · exact he
    have hpar := hT.mem c s hs
    -- the statement is outside its block
    have hout : d ∉ σ.func.chain (σ.func.stm s).parent := by
      intro hin
      have hle := Func.lt_of_mem_chain hT.parent_lt hin
      have hlt := hT.parent_lt d _ (hT.nested s d ho)
      omega
    have hstart : Holds σ r d (.before s) :=
      ⟨by rwa [hpar], by rwa [hpar], fun hin => absurd hin hout⟩
    exact ((hstart.runs hT hr hc hg hruns).2 Func.mem_chain_self).2 hblock

end Generate

end CLSmith
