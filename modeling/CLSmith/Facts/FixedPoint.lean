import CLSmith.Facts.Rounds
/-!
# The fixed point of a loop body

What is stored for the statements of a block that was visited, and that the
shortcuts give what a visit would. `find_fixed_point` of a loop body returns
exactly where no pointee arrives in its last round, and what it stores is then
closed.
-/

namespace CLSmith

namespace Facts

namespace Loop

open Common

variable {N : Type} [DecidableEq N] {D : N → Decl}

/-! ## What is stored -/

/-- **The environments stored** before and after a statement or a block. The vectors
may list their facts in any order. -/
structure StoredAs (fm : FactMgr N) (id : ℕ) (E E' : Env N) : Prop where
  wfIn : Wf (fm.mapFactsIn id)
  wfOut : Wf (fm.mapFactsOut id)
  envIn : env (fm.mapFactsIn id) = E
  envOut : env (fm.mapFactsOut id) = E'

mutual

/-- **What is stored for a statement and all in it** is of a visit with the
environment. -/
def Stm.Holds (fm : FactMgr N) : Stm N → Env N → Prop
  | .assign id a, E => StoredAs fm id E (a.after E)
  | .ifElse id trueId falseId ifTrue ifFalse, E =>
    StoredAs fm id E (ifTrue.after E ⊔ ifFalse.after E) ∧
      (StoredAs fm trueId E (ifTrue.after E) ∧ ifTrue.Holds fm E) ∧
      StoredAs fm falseId E (ifFalse.after E) ∧ ifFalse.Holds fm E
  | .cont id, E => StoredAs fm id E E

def Stms.Holds (fm : FactMgr N) : Stms N → Env N → Prop
  | .nil, _ => True
  | .cons s rest, E => s.Holds fm E ∧ rest.Holds fm (s.after E)

end

/-- What is stored before is well formed; where it describes the pointers, all
that is stored is of a visit with it. -/
def Fits (ps : List N) (fm : FactMgr N) (id : ℕ) (holds : Env N → Prop) : Prop :=
  Wf (fm.mapFactsIn id) ∧ (Described ps (env (fm.mapFactsIn id)) → holds (env (fm.mapFactsIn id)))

mutual

/-- **What shortcuts read is coherent**, of a statement and all in it: what is stored
after it is what the statement makes of what is stored before it. -/
def Stm.Coherent (ps : List N) (fm : FactMgr N) : Stm N → Prop
  | .assign id a => Fits ps fm id fun E => (Stm.assign id a).Holds fm E
  | .ifElse id trueId falseId ifTrue ifFalse =>
    Fits ps fm id (fun E => (Stm.ifElse id trueId falseId ifTrue ifFalse).Holds fm E) ∧
      (Fits ps fm trueId (fun E => StoredAs fm trueId E (ifTrue.after E) ∧ ifTrue.Holds fm E) ∧
        ifTrue.Coherent ps fm) ∧
      Fits ps fm falseId (fun E => StoredAs fm falseId E (ifFalse.after E) ∧
        ifFalse.Holds fm E) ∧
      ifFalse.Coherent ps fm
  | .cont _ => True

def Stms.Coherent (ps : List N) (fm : FactMgr N) : Stms N → Prop
  | .nil => True
  | .cons s rest => s.Coherent ps fm ∧ rest.Coherent ps fm

end

/-- The same is stored under a number. -/
def SameAt (fm fm' : FactMgr N) (i : ℕ) : Prop :=
  fm'.mapFactsIn i = fm.mapFactsIn i ∧ fm'.mapFactsOut i = fm.mapFactsOut i

/-- Nothing is stored but under these numbers. -/
def Untouched (ids : List ℕ) (fm fm' : FactMgr N) : Prop := ∀ i ∉ ids, SameAt fm fm' i

section Stored

variable {ps : List N} {fm fm' fm'' : FactMgr N} {E E' : Env N} {id : ℕ} {ids ids' : List ℕ}

omit [DecidableEq N] in
theorem Untouched.trans (h : Untouched ids fm fm') (h' : Untouched ids' fm' fm'') :
    Untouched (ids ++ ids') fm fm'' := by
  intro i hi
  obtain ⟨hi, hi'⟩ := not_or.mp fun h => hi (List.mem_append.mpr h)
  exact ⟨(h' i hi').1.trans (h i hi).1, (h' i hi').2.trans (h i hi).2⟩

omit [DecidableEq N] in
theorem Untouched.mono (h : Untouched ids fm fm') (hsub : ids ⊆ ids') : Untouched ids' fm fm' :=
  fun i hi => h i fun hmem => hi (hsub hmem)

omit [DecidableEq N] in
/-- Numbers that are other ones keep what is stored. -/
theorem Untouched.sameAt (h : Untouched ids fm fm') (hdisj : ids'.Disjoint ids) :
    ∀ i ∈ ids', SameAt fm fm' i := fun i hi => h i (hdisj hi)

omit [DecidableEq N] in
theorem untouched_record (fm : FactMgr N) (id : ℕ) (inputs outputs : FactVec (Variable N)) :
    Untouched [id] fm (fm.record id inputs outputs) := by
  intro i hi
  have hne : i ≠ id := fun h => hi (List.mem_singleton.mpr h)
  exact ⟨Function.update_of_ne hne _ _, Function.update_of_ne hne _ _⟩

theorem StoredAs.congr (h : StoredAs fm id E E') (hsame : SameAt fm fm' id) :
    StoredAs fm' id E E' := by
  obtain ⟨hin, hout⟩ := hsame
  refine ⟨?_, ?_, ?_, ?_⟩
  · rw [hin]
    exact h.wfIn
  · rw [hout]
    exact h.wfOut
  · rw [hin]
    exact h.envIn
  · rw [hout]
    exact h.envOut

theorem storedAs_record {inputs outputs : FactVec (Variable N)} (hin : Wf inputs)
    (hout : Wf outputs) :
    StoredAs (fm.record id inputs outputs) id (env inputs) (env outputs) := by
  have hi : (fm.record id inputs outputs).mapFactsIn id = inputs := Function.update_self _ _ _
  have ho : (fm.record id inputs outputs).mapFactsOut id = outputs := Function.update_self _ _ _
  refine ⟨?_, ?_, ?_, ?_⟩
  · rwa [hi]
  · rwa [ho]
  · rw [hi]
  · rw [ho]

theorem Stm.Holds.stored {s : Stm N} (h : s.Holds fm E) : StoredAs fm s.id E (s.after E) := by
  cases s with
  | assign id a => exact h
  | ifElse id trueId falseId ifTrue ifFalse => exact h.1
  | cont id => exact h

mutual

/-- What holds of a statement rests on its own numbers. -/
theorem Stm.Holds.congr {s : Stm N} {E : Env N} (h : s.Holds fm E)
    (hsame : ∀ i ∈ s.ids, SameAt fm fm' i) : s.Holds fm' E := by
  match s with
  | .assign id a => exact StoredAs.congr h (hsame id List.mem_cons_self)
  | .ifElse id trueId falseId ifTrue ifFalse =>
    obtain ⟨hown, ⟨htrue, hts⟩, hfalse, hfs⟩ := h
    simp only [Stm.ids, List.forall_mem_cons, List.forall_mem_append] at hsame
    obtain ⟨hid, htid, hfid, hsts, hsfs⟩ := hsame
    exact ⟨hown.congr hid, ⟨htrue.congr htid, Stms.Holds.congr hts hsts⟩, hfalse.congr hfid,
      Stms.Holds.congr hfs hsfs⟩
  | .cont id => exact StoredAs.congr h (hsame id List.mem_cons_self)

theorem Stms.Holds.congr {ss : Stms N} {E : Env N} (h : ss.Holds fm E)
    (hsame : ∀ i ∈ ss.ids, SameAt fm fm' i) : ss.Holds fm' E := by
  match ss with
  | .nil => exact trivial
  | .cons s rest =>
    obtain ⟨hs, hrest⟩ := List.forall_mem_append.mp hsame
    exact ⟨Stm.Holds.congr h.1 hs, Stms.Holds.congr h.2 hrest⟩

end

omit [DecidableEq N] in
theorem Fits.congr [DecidableEq N] {holds holds' : Env N → Prop} (h : Fits ps fm id holds)
    (hsame : SameAt fm fm' id) (himp : ∀ E, holds E → holds' E) : Fits ps fm' id holds' := by
  unfold Fits
  rw [hsame.1]
  exact ⟨h.1, fun hd => himp _ (h.2 hd)⟩

mutual

theorem Stm.Coherent.congr {s : Stm N} (h : s.Coherent ps fm)
    (hsame : ∀ i ∈ s.ids, SameAt fm fm' i) : s.Coherent ps fm' := by
  match s with
  | .assign id a =>
    exact Fits.congr h (hsame id List.mem_cons_self) fun E hE => Stm.Holds.congr hE hsame
  | .ifElse id trueId falseId ifTrue ifFalse =>
    obtain ⟨hown, ⟨htrue, hts⟩, hfalse, hfs⟩ := h
    have hall := hsame
    simp only [Stm.ids, List.forall_mem_cons, List.forall_mem_append] at hall
    obtain ⟨hid, htid, hfid, hsts, hsfs⟩ := hall
    exact ⟨hown.congr hid fun E hE => Stm.Holds.congr hE hsame,
      ⟨htrue.congr htid fun E hE => ⟨hE.1.congr htid, Stms.Holds.congr hE.2 hsts⟩,
        Stms.Coherent.congr hts hsts⟩,
      hfalse.congr hfid fun E hE => ⟨hE.1.congr hfid, Stms.Holds.congr hE.2 hsfs⟩,
      Stms.Coherent.congr hfs hsfs⟩
  | .cont _ => exact trivial

theorem Stms.Coherent.congr {ss : Stms N} (h : ss.Coherent ps fm)
    (hsame : ∀ i ∈ ss.ids, SameAt fm fm' i) : ss.Coherent ps fm' := by
  match ss with
  | .nil => exact trivial
  | .cons s rest =>
    obtain ⟨hs, hrest⟩ := List.forall_mem_append.mp hsame
    exact ⟨Stm.Coherent.congr h.1 hs, Stms.Coherent.congr h.2 hrest⟩

end

theorem StoredAs.fits {holds : Env N → Prop} (h : StoredAs fm id E E') (hE : holds E) :
    Fits ps fm id holds := ⟨h.wfIn, fun _ => by rw [h.envIn]; exact hE⟩

mutual

/-- **A visit leaves all coherent.** -/
theorem Stm.Holds.coherent {s : Stm N} {E : Env N} (h : s.Holds fm E) : s.Coherent ps fm := by
  match s with
  | .assign id a => exact (show StoredAs fm id E (a.after E) from h).fits h
  | .ifElse id trueId falseId ifTrue ifFalse =>
    obtain ⟨hown, ⟨htrue, hts⟩, hfalse, hfs⟩ := h
    exact ⟨hown.fits ⟨hown, ⟨htrue, hts⟩, hfalse, hfs⟩,
      ⟨htrue.fits ⟨htrue, hts⟩, Stms.Holds.coherent hts⟩, hfalse.fits ⟨hfalse, hfs⟩,
      Stms.Holds.coherent hfs⟩
  | .cont _ => exact trivial

theorem Stms.Holds.coherent {ss : Stms N} {E : Env N} (h : ss.Holds fm E) :
    ss.Coherent ps fm := by
  match ss with
  | .nil => exact trivial
  | .cons s rest => exact ⟨Stm.Holds.coherent h.1, Stms.Holds.coherent h.2⟩

end

end Stored

/-! ## Visits -/

section Visits

variable {ps : List N} {fm : FactMgr N} {inputs : FactVec (Variable N)} {id : ℕ}

/-- **A visit does** what is said: its outputs stand for an environment, and of
what is stored then something holds. -/
def Does (visit : Visit N) (E' : Env N) (holds : FactMgr N → Prop) (ids : List ℕ)
    (inputs : FactVec (Variable N)) (fm : FactMgr N) : Prop :=
  ∃ outputs fm', visit inputs fm = some (outputs, fm') ∧ Wf outputs ∧ env outputs = E' ∧
    holds fm' ∧ Untouched ids fm fm'

/-- After a visit the next round of a block without back edges takes the
shortcut. -/
theorem rounds_again {visit : Visit N} {left : ℕ} (hin : Wf inputs)
    (h : fm.mapFactsIn id = inputs) :
    rounds id [] visit (left + 1) false inputs fm = some fm := by
  have hsame : sameFacts inputs (fm.mapFactsIn id) = true := by
    rw [h]
    exact (sameFacts_iff hin hin).mpr rfl
  unfold rounds mergeEdges
  simp only [Bool.not_false, Bool.true_and]
  rw [if_pos hsame]

/-- **A block in a statement** is visited at most once, or its shortcut gives the
same. -/
theorem findFixedPoint_block {ss : Stms N}
    (hvisit : Does (ss.visit D) (ss.after (env inputs)) (fun fm => ss.Holds fm (env inputs)) ss.ids
      inputs fm)
    (hfits : Fits ps fm id fun E => StoredAs fm id E (ss.after E) ∧ ss.Holds fm E)
    (hid : id ∉ ss.ids) (hin : Wf inputs) (hd : Described ps (env inputs)) :
    ∃ fm', findFixedPoint id [] (ss.visit D) false inputs fm = some fm' ∧
      (StoredAs fm' id (env inputs) (ss.after (env inputs)) ∧ ss.Holds fm' (env inputs)) ∧
      Untouched (id :: ss.ids) fm fm' := by
  by_cases hsame : sameFacts inputs (fm.mapFactsIn id) = true
  · -- the shortcut
    have heq := (sameFacts_iff hin hfits.1).mp hsame
    have hholds := hfits.2 (heq ▸ hd)
    rw [← heq] at hholds
    refine ⟨fm, ?_, hholds, fun i _ => ⟨rfl, rfl⟩⟩
    unfold findFixedPoint
    simp only [Bool.not_false, Bool.true_and]
    split
    · unfold rounds mergeEdges
      simp only [Bool.not_false, Bool.true_and]
      rw [if_pos hsame]
    · rfl
  · obtain ⟨outputs, fm₁, hv, hout, henv, hholds, hun⟩ := hvisit
    have hrec : StoredAs (fm₁.record id inputs outputs) id (env inputs) (env outputs) :=
      storedAs_record hin hout
    have hkeep := untouched_record fm₁ id inputs outputs
    have hagain : ∀ left, rounds id [] (ss.visit D) (left + 1) false inputs
        (fm₁.record id inputs outputs) = some (fm₁.record id inputs outputs) :=
      fun left => rounds_again hin (Function.update_self _ _ _)
    refine ⟨fm₁.record id inputs outputs, ?_, ⟨?_, ?_⟩, ?_⟩
    · unfold findFixedPoint
      simp only [Bool.not_false, Bool.true_and]
      split
      · unfold rounds mergeEdges
        simp only [Bool.not_false, Bool.true_and]
        rw [if_neg hsame, hv]
        exact hagain 6
      · rw [hv]
        exact hagain 7
    · rw [← henv]
      exact hrec
    · refine hholds.congr (hkeep.sameAt fun i hi hi' => ?_)
      exact hid (List.mem_singleton.mp hi' ▸ hi)
    · refine (hun.trans hkeep).mono fun i hi => ?_
      rcases List.mem_append.mp hi with hi | hi
      · exact List.mem_cons_of_mem _ hi
      · exact List.mem_singleton.mp hi ▸ List.mem_cons_self

/-- **A statement that is validated** is visited, or its shortcut gives the
same. -/
theorem does_validate {s : Stm N}
    (hvisit : ∃ outputs fm', s.visitFacts D inputs fm = some (outputs, fm') ∧ Wf outputs ∧
      env outputs = s.after (env inputs) ∧ s.Holds (fm'.record s.id inputs outputs) (env inputs) ∧
      Untouched s.ids fm fm')
    (hfits : s.isCtrlStmt = false → Fits ps fm s.id fun E => s.Holds fm E)
    (hid : s.id ∈ s.ids) (hin : Wf inputs) (hd : Described ps (env inputs)) :
    Does (validate s (s.visitFacts D)) (s.after (env inputs)) (fun fm => s.Holds fm (env inputs))
      s.ids inputs fm := by
  unfold Does validate
  by_cases hshort : (!s.isCtrlStmt && sameFacts inputs (fm.mapFactsIn s.id)) = true
  · obtain ⟨hctrl, hsame⟩ := Bool.and_eq_true_iff.mp hshort
    have hfits := hfits (by simpa using hctrl)
    have heq := (sameFacts_iff hin hfits.1).mp hsame
    have hholds := hfits.2 (heq ▸ hd)
    rw [← heq] at hholds
    have hstored := hholds.stored
    exact ⟨fm.mapFactsOut s.id, fm, if_pos hshort, hstored.wfOut, hstored.envOut, hholds,
      fun i _ => ⟨rfl, rfl⟩⟩
  · obtain ⟨outputs, fm', hv, hout, henv, hholds, hun⟩ := hvisit
    refine ⟨outputs, fm'.record s.id inputs outputs, ?_, hout, henv, hholds, ?_⟩
    · rw [if_neg hshort, hv]
      rfl
    · refine (hun.trans (untouched_record fm' s.id inputs outputs)).mono fun i hi => ?_
      rcases List.mem_append.mp hi with hi | hi
      · exact hi
      · exact List.mem_singleton.mp hi ▸ hid

mutual

/-- **A statement does** to an environment what is said of it. -/
theorem does_stm (s : Stm N) {inputs : FactVec (Variable N)} {fm : FactMgr N} (hok : s.Ok D)
    (hps : s.pointers ⊆ ps) (hnd : s.ids.Nodup) (hcoh : s.Coherent ps fm) (hin : Wf inputs)
    (hd : Described ps (env inputs)) :
    Does (validate s (s.visitFacts D)) (s.after (env inputs)) (fun fm => s.Holds fm (env inputs))
      s.ids inputs fm := by
  match s with
  | .assign id a =>
    obtain ⟨hwf, henv⟩ := visit_assign hok hin (hd.mono hps)
    refine does_validate ⟨_, fm, rfl, hwf, henv, ?_, fun i _ => ⟨rfl, rfl⟩⟩ (fun _ => hcoh)
      List.mem_cons_self hin hd
    rw [Stm.Holds, ← henv]
    exact storedAs_record hin hwf
  | .ifElse id trueId falseId ifTrue ifFalse =>
    obtain ⟨hokt, hokf⟩ := hok
    obtain ⟨hpst, hpsf⟩ := List.append_subset.mp hps
    obtain ⟨hfits, ⟨hfitst, hcoht⟩, hfitsf, hcohf⟩ := hcoh
    simp only [Stm.ids, List.nodup_cons, List.mem_cons, List.mem_append, not_or,
      List.nodup_append'] at hnd
    obtain ⟨⟨hid₁, hid₂, hid₃, hid₄⟩, ⟨htf, ht₁, ht₂⟩, ⟨hf₁, hf₂⟩, hndt, hndf, hdisj⟩ := hnd
    obtain ⟨fm₁, hfind₁, hholds₁, hun₁⟩ := findFixedPoint_block
      (does_stms ifTrue hokt hpst hndt hcoht hin hd) hfitst ht₁ hin hd
    -- the true branch leaves what is stored for the false one
    have hsame₁ : ∀ i ∈ falseId :: ifFalse.ids, SameAt fm fm₁ i := by
      refine hun₁.sameAt fun i hi hi' => ?_
      rcases List.mem_cons.mp hi with rfl | hi <;> rcases List.mem_cons.mp hi' with h | hi'
      · exact htf h.symm
      · exact hf₁ hi'
      · exact ht₂ (h ▸ hi)
      · exact hdisj hi' hi
    obtain ⟨hsamef, hsamefs⟩ := List.forall_mem_cons.mp hsame₁
    have hfitsf' : Fits ps fm₁ falseId fun E => StoredAs fm₁ falseId E (ifFalse.after E) ∧
        ifFalse.Holds fm₁ E :=
      hfitsf.congr hsamef fun E hE => ⟨hE.1.congr hsamef, hE.2.congr hsamefs⟩
    obtain ⟨fm₂, hfind₂, hholds₂, hun₂⟩ := findFixedPoint_block
      (does_stms ifFalse hokf hpsf hndf (hcohf.congr hsamefs) hin hd) hfitsf' hf₂ hin hd
    have hsame₂ : ∀ i ∈ trueId :: ifTrue.ids, SameAt fm₁ fm₂ i := by
      refine hun₂.sameAt fun i hi hi' => ?_
      rcases List.mem_cons.mp hi with rfl | hi <;> rcases List.mem_cons.mp hi' with h | hi'
      · exact htf h
      · exact ht₂ hi'
      · exact hf₁ (h ▸ hi)
      · exact hdisj hi hi'
    obtain ⟨hsamet, hsamets⟩ := List.forall_mem_cons.mp hsame₂
    have hstoredt := hholds₁.1.congr hsamet
    have hwf := mergeFacts_wf hstoredt.wfOut hholds₂.1.wfOut
    have henv := env_mergeFacts hstoredt.wfOut hholds₂.1.wfOut
    rw [hstoredt.envOut, hholds₂.1.envOut] at henv
    have houtt : fm₂.mapFactsOut trueId = fm₁.mapFactsOut trueId := hsamet.2
    rw [houtt] at hwf henv
    have hrec : ∀ i ∈ trueId :: falseId :: (ifTrue.ids ++ ifFalse.ids), SameAt fm₂
        (fm₂.record id inputs (mergeFacts (fm₁.mapFactsOut trueId) (fm₂.mapFactsOut falseId)).1)
        i := by
      refine (untouched_record _ _ _ _).sameAt fun i hi hi' => ?_
      rw [List.mem_singleton.mp hi'] at hi
      simp only [List.mem_cons, List.mem_append] at hi
      rcases hi with h | h | h | h
      · exact hid₁ h
      · exact hid₂ h
      · exact hid₃ h
      · exact hid₄ h
    simp only [List.forall_mem_cons, List.forall_mem_append] at hrec
    obtain ⟨hrt, hrf, hrts, hrfs⟩ := hrec
    refine does_validate ⟨_, fm₂, ?_, hwf, henv, ?_, ?_⟩ (fun _ => hfits) List.mem_cons_self hin hd
    · show (do
        let fm ← findFixedPoint trueId [] (ifTrue.visit D) false inputs fm
        let inputs_true := fm.mapFactsOut trueId
        let fm ← findFixedPoint falseId [] (ifFalse.visit D) false inputs fm
        let inputs_false := fm.mapFactsOut falseId
        return ((mergeFacts inputs_true inputs_false).1, fm)) = _
      rw [hfind₁]
      show (do
        let fm ← findFixedPoint falseId [] (ifFalse.visit D) false inputs fm₁
        let inputs_false := fm.mapFactsOut falseId
        return ((mergeFacts (fm₁.mapFactsOut trueId) inputs_false).1, fm)) = _
      rw [hfind₂]
      rfl
    · refine ⟨?_, ⟨hstoredt.congr hrt, (hholds₁.2.congr hsamets).congr hrts⟩,
        hholds₂.1.congr hrf, hholds₂.2.congr hrfs⟩
      rw [← henv]
      exact storedAs_record hin hwf
    · refine (hun₁.trans hun₂).mono fun i hi => ?_
      simp only [List.mem_append, List.mem_cons] at hi
      simp only [Stm.ids, List.mem_cons, List.mem_append]
      tauto
  | .cont id =>
    refine does_validate ⟨inputs, fm, rfl, hin, rfl, ?_, fun i _ => ⟨rfl, rfl⟩⟩
      (fun h => nomatch h) List.mem_cons_self hin hd
    exact storedAs_record hin hin

theorem does_stms (ss : Stms N) {inputs : FactVec (Variable N)} {fm : FactMgr N} (hok : ss.Ok D)
    (hps : ss.pointers ⊆ ps) (hnd : ss.ids.Nodup) (hcoh : ss.Coherent ps fm) (hin : Wf inputs)
    (hd : Described ps (env inputs)) :
    Does (ss.visit D) (ss.after (env inputs)) (fun fm => ss.Holds fm (env inputs)) ss.ids inputs
      fm := by
  match ss with
  | .nil => exact ⟨inputs, fm, rfl, hin, rfl, trivial, fun i _ => ⟨rfl, rfl⟩⟩
  | .cons s rest =>
    obtain ⟨hpss, hpsr⟩ := List.append_subset.mp hps
    obtain ⟨hnds, hndr, hdisj⟩ := List.nodup_append'.mp hnd
    obtain ⟨outputs, fm₁, hv₁, hout₁, henv₁, hholds₁, hun₁⟩ :=
      does_stm s hok.1 hpss hnds hcoh.1 hin hd
    have hd₁ : Described ps (env outputs) := by
      rw [henv₁]
      exact hd.stm s hpss
    have hcoh₁ := hcoh.2.congr (hun₁.sameAt fun i hi hi' => hdisj hi' hi)
    obtain ⟨outputs', fm₂, hv₂, hout₂, henv₂, hholds₂, hun₂⟩ :=
      does_stms rest hok.2 hpsr hndr hcoh₁ hout₁ hd₁
    rw [henv₁] at henv₂ hholds₂
    refine ⟨outputs', fm₂, ?_, hout₂, henv₂, ⟨?_, hholds₂⟩, hun₁.trans hun₂⟩
    · show (do
        let (outputs, fm) ← validate s (s.visitFacts D) inputs fm
        rest.visit D outputs fm) = _
      rw [hv₁]
      exact hv₂
    · exact hholds₁.congr (hun₂.sameAt fun i hi hi' => hdisj hi hi')

end

end Visits

/-! ## Rounds -/

section Rounds

variable {body : Body D} {fm : FactMgr N} {inputs : FactVec (Variable N)} {E : Env N}

mutual

/-- What is stored after the continues. -/
theorem Stm.Holds.continues {s : Stm N} {E : Env N} (h : s.Holds fm E) :
    (∀ i ∈ s.continues, Wf (fm.mapFactsOut i)) ∧
      s.continues.map (fun i => env (fm.mapFactsOut i)) = s.atContinues E := by
  match s with
  | .assign id a => exact ⟨fun i hi => absurd hi List.not_mem_nil, rfl⟩
  | .ifElse id trueId falseId ifTrue ifFalse =>
    obtain ⟨-, ⟨-, hts⟩, -, hfs⟩ := h
    obtain ⟨hwt, hmt⟩ := Stms.Holds.continues hts
    obtain ⟨hwf, hmf⟩ := Stms.Holds.continues hfs
    refine ⟨List.forall_mem_append.mpr ⟨hwt, hwf⟩, ?_⟩
    show (ifTrue.continues ++ ifFalse.continues).map _ = _
    rw [List.map_append, hmt, hmf]
    rfl
  | .cont id =>
    have hstored : StoredAs fm id E E := h
    refine ⟨fun i hi => ?_, ?_⟩
    · rw [List.mem_singleton.mp hi]
      exact hstored.wfOut
    · show [env (fm.mapFactsOut id)] = [E]
      rw [hstored.envOut]

theorem Stms.Holds.continues {ss : Stms N} {E : Env N} (h : ss.Holds fm E) :
    (∀ i ∈ ss.continues, Wf (fm.mapFactsOut i)) ∧
      ss.continues.map (fun i => env (fm.mapFactsOut i)) = ss.atContinues E := by
  match ss with
  | .nil => exact ⟨fun i hi => absurd hi List.not_mem_nil, rfl⟩
  | .cons s rest =>
    obtain ⟨hws, hms⟩ := Stm.Holds.continues h.1
    obtain ⟨hwr, hmr⟩ := Stms.Holds.continues h.2
    refine ⟨List.forall_mem_append.mpr ⟨hws, hwr⟩, ?_⟩
    show (s.continues ++ rest.continues).map _ = _
    rw [List.map_append, hms, hmr]
    rfl

end

/-- **A manager a pass over the body has left**, from an environment. What is stored
for the body and for each statement in it comes from that one pass. -/
def Analysed (body : Body D) (fm : FactMgr N) (E : Env N) : Prop :=
  StoredAs fm body.id E (body.stms.after E) ∧ body.stms.Holds fm E

/-- What is stored after the sources of the back edges. -/
theorem Analysed.backEdges (h : Analysed body fm E) :
    (∀ i ∈ body.backEdges, Wf (fm.mapFactsOut i)) ∧
      body.backEdges.map (fun i => env (fm.mapFactsOut i)) = body.atBackEdges E := by
  obtain ⟨hstored, hholds⟩ := h
  obtain ⟨hw, hm⟩ := hholds.continues
  rcases body.back_cases E with ⟨hedges, hat, -⟩ | ⟨hedges, hat, -⟩ <;> rw [hedges, hat]
  · exact ⟨fun i hi => absurd hi List.not_mem_nil, rfl⟩
  · refine ⟨List.forall_mem_append.mpr ⟨hw, fun i hi => ?_⟩, ?_⟩
    · rw [List.mem_singleton.mp hi]
      exact hstored.wfOut
    · rw [List.map_append, hm, List.map_singleton, hstored.envOut]

theorem mergeEdges_spec {edges : List ℕ} (hin : Wf inputs)
    (hout : ∀ i ∈ edges, Wf (fm.mapFactsOut i)) :
    Wf (mergeEdges fm edges inputs) ∧ env (mergeEdges fm edges inputs) =
      supAll (env inputs) (edges.map fun i => env (fm.mapFactsOut i)) := by
  induction edges generalizing inputs with
  | nil => exact ⟨hin, rfl⟩
  | cons src edges ih =>
    obtain ⟨hsrc, hout⟩ := List.forall_mem_cons.mp hout
    obtain ⟨hwf, henv⟩ := ih (mergeFacts_wf hin hsrc) hout
    refine ⟨hwf, henv.trans ?_⟩
    rw [env_mergeFacts hin hsrc]
    rfl

theorem le_supAll {F : Env N} {Es : List (Env N)} (h : F ≤ E ∨ F ∈ Es) : F ≤ supAll E Es := by
  induction Es generalizing E with
  | nil => exact h.resolve_right List.not_mem_nil
  | cons G Es ih =>
    show F ≤ supAll (E ⊔ G) Es
    rcases h with h | h
    · exact ih (.inl (h.trans le_sup_left))
    · rcases List.mem_cons.mp h with rfl | h
      · exact ih (.inl le_sup_right)
      · exact ih (.inr h)

/-- The stored input is closed under the back edges. -/
def Closed (body : Body D) (fm : FactMgr N) : Prop :=
  ∀ src ∈ body.backEdges, (mergeFacts (fm.mapFactsIn body.id) (fm.mapFactsOut src)).2 = false

theorem supAll_eq_iff {Es : List (Env N)} : supAll E Es = E ↔ ∀ F ∈ Es, F ≤ E := by
  constructor
  · intro h F hF
    exact (le_supAll (.inr hF)).trans_eq h
  · induction Es with
    | nil => exact fun _ => rfl
    | cons F Es ih =>
      intro h
      obtain ⟨hF, hEs⟩ := List.forall_mem_cons.mp h
      show supAll (E ⊔ F) Es = E
      rw [sup_of_le_left hF, ih hEs]

/-- **What is stored is closed** where a round from it changes nothing. -/
theorem closed_iff (h : Analysed body fm E) : Closed body fm ↔ body.round E = E := by
  obtain ⟨hw, hm⟩ := h.backEdges
  have hsrc : ∀ src ∈ body.backEdges,
      ((mergeFacts (fm.mapFactsIn body.id) (fm.mapFactsOut src)).2 = false ↔
        env (fm.mapFactsOut src) ≤ E) := by
    intro src hsrc
    have hchanged := mergeFacts_changed h.1.wfIn (hw src hsrc)
    rw [← env_eq_iff (mergeFacts_wf h.1.wfIn (hw src hsrc)) h.1.wfIn,
      env_mergeFacts h.1.wfIn (hw src hsrc), h.1.envIn, sup_eq_left] at hchanged
    rw [← Bool.not_eq_true, hchanged, not_not]
  show _ ↔ supAll E (body.atBackEdges E) = E
  rw [supAll_eq_iff, ← hm, List.forall_mem_map]
  exact forall₂_congr hsrc

/-- **A pass over the body** from well-formed inputs leaves a manager that is
analysed from them. -/
theorem analysed_of_pass (hcoh : body.stms.Coherent body.stms.pointers fm) (hin : Wf inputs)
    (hd : Described body.stms.pointers (env inputs)) :
    ∃ outputs fm', body.stms.visit D inputs fm = some (outputs, fm') ∧
      Analysed body (fm'.record body.id inputs outputs) (env inputs) := by
  obtain ⟨hid, hnd⟩ := List.nodup_cons.mp body.nodup
  obtain ⟨outputs, fm', hv, hout, henv, hholds, -⟩ :=
    does_stms body.stms body.ok (List.Subset.refl _) hnd hcoh hin hd
  refine ⟨outputs, fm', hv, ?_, ?_⟩
  · rw [← henv]
    exact storedAs_record hin hout
  · refine hholds.congr ((untouched_record _ _ _ _).sameAt fun i hi hi' => ?_)
    exact hid (List.mem_singleton.mp hi' ▸ hi)

/-- The inputs a round starts from. -/
theorem mergeEdges_analysed (h : Analysed body fm (env inputs)) (hin : Wf inputs) :
    Wf (mergeEdges fm body.backEdges inputs) ∧
      env (mergeEdges fm body.backEdges inputs) = body.round (env inputs) := by
  obtain ⟨hw, hm⟩ := h.backEdges
  obtain ⟨hwf, henv⟩ := mergeEdges_spec hin hw
  exact ⟨hwf, henv.trans (by rw [hm]; rfl)⟩

/-- A pass over the body from merged inputs, in a round that does not take the
shortcut. -/
theorem rounds_pass {visitOnce : Bool} (left : ℕ) {E : Env N}
    (hcoh : body.stms.Coherent body.stms.pointers fm)
    (hwf : Wf (mergeEdges fm body.backEdges inputs))
    (henv : env (mergeEdges fm body.backEdges inputs) = E)
    (hd : Described body.stms.pointers E)
    (hno : (!visitOnce && sameFacts (mergeEdges fm body.backEdges inputs)
      (fm.mapFactsIn body.id)) = false) :
    ∃ inputs' fm', Wf inputs' ∧ env inputs' = E ∧ Analysed body fm' E ∧
      rounds body.id body.backEdges (body.stms.visit D) (left + 1) visitOnce inputs fm =
        rounds body.id body.backEdges (body.stms.visit D) left false inputs' fm' := by
  obtain ⟨outputs, fm', hv, hana⟩ := analysed_of_pass hcoh hwf (henv ▸ hd)
  refine ⟨_, _, hwf, henv, henv ▸ hana, ?_⟩
  conv_lhs => unfold rounds
  simp only
  rw [if_neg (by simp [hno]), hv]
  rfl

/-- **A round from a pass on**: the shortcut is taken where it changes nothing. -/
theorem rounds_step (left : ℕ) (h : Analysed body fm (env inputs)) (hin : Wf inputs)
    (hd : Described body.stms.pointers (env inputs)) :
    (body.round (env inputs) = env inputs ∧
      rounds body.id body.backEdges (body.stms.visit D) (left + 1) false inputs fm = some fm) ∨
    body.round (env inputs) ≠ env inputs ∧ ∃ inputs' fm', Wf inputs' ∧
      env inputs' = body.round (env inputs) ∧ Analysed body fm' (body.round (env inputs)) ∧
      rounds body.id body.backEdges (body.stms.visit D) (left + 1) false inputs fm =
        rounds body.id body.backEdges (body.stms.visit D) left false inputs' fm' := by
  obtain ⟨hwf, henv⟩ := mergeEdges_analysed h hin
  have hsame := sameFacts_iff hwf h.1.wfIn
  rw [henv, h.1.envIn] at hsame
  by_cases heq : body.round (env inputs) = env inputs
  · refine .inl ⟨heq, ?_⟩
    unfold rounds
    simp only [Bool.not_false, Bool.true_and]
    rw [if_pos (hsame.mpr heq)]
  · have hno := Bool.eq_false_iff.mpr fun h => heq (hsame.mp h)
    exact .inr ⟨heq, rounds_pass left h.2.coherent hwf henv (described_round body hd)
      (by simp [hno])⟩

/-- **The loop from a pass on**: it returns exactly where in its last round
nothing changes, and leaves what is closed. -/
theorem rounds_iff {left : ℕ} (h : Analysed body fm (env inputs)) (hin : Wf inputs)
    (hd : Described body.stms.pointers (env inputs)) :
    (∃ fm', rounds body.id body.backEdges (body.stms.visit D) (left + 1) false inputs fm =
        some fm' ∧ Closed body fm') ↔
      body.round^[left + 1] (env inputs) = body.round^[left] (env inputs) := by
  induction left generalizing inputs fm with
  | zero =>
    rcases rounds_step 0 h hin hd with ⟨heq, hr⟩ | ⟨hne, inputs', fm', -, -, -, hr⟩
    · exact ⟨fun _ => heq, fun _ => ⟨fm, hr, (closed_iff h).mpr heq⟩⟩
    · rw [hr]
      exact ⟨(fun ⟨_, hsome, _⟩ => nomatch hsome), fun heq => absurd heq hne⟩
  | succ left ih =>
    rcases rounds_step (left + 1) h hin hd with
      ⟨heq, hr⟩ | ⟨hne, inputs', fm', hin', henv', hana', hr⟩
    · refine ⟨fun _ => ?_, fun _ => ⟨fm, hr, (closed_iff h).mpr heq⟩⟩
      rw [Function.iterate_fixed heq, Function.iterate_fixed heq]
    · have hiter : ∀ n, body.round^[n + 1] (env inputs) = body.round^[n] (env inputs') := by
        intro n
        rw [Function.iterate_succ_apply, henv']
      rw [hr, hiter, hiter]
      exact ih (henv' ▸ hana') hin' (henv' ▸ described_round body hd)

/-- The rounds from a pass on, with the limit on them. A body that was visited is merged
with its back edges first, and its first pass is a round of those. -/
theorem settles_visited {E₀ : Env N} (visitOnce : Bool) (hvisited : fm.mapVisited body.id = true)
    (hfm : Analysed body fm E₀) (hd₀ : Described body.stms.pointers E₀) (hin : Wf inputs)
    (hd : Described body.stms.pointers (env inputs)) :
    body.Settles visitOnce inputs fm ↔
      ∀ p x, body.flow.Arrives (pointees (env (mergeEdges fm body.backEdges inputs))) 7 p x →
        body.flow.Arrives (pointees (env (mergeEdges fm body.backEdges inputs))) 6 p x := by
  obtain ⟨hw, hm⟩ := hfm.backEdges
  obtain ⟨hwf, henv⟩ := mergeEdges_spec hin hw
  rw [hm] at henv
  have hd₁ : Described body.stms.pointers (env (mergeEdges fm body.backEdges inputs)) := by
    rw [henv]
    exact hd.supAll (described_atBackEdges body hd₀)
  rw [← round_iterate_eq_iff body 6 hd₁]
  have hsettles : body.Settles visitOnce inputs fm ↔ ∃ fm', rounds body.id body.backEdges
      (body.stms.visit D) 8 visitOnce inputs fm = some fm' ∧ Closed body fm' := by
    unfold Body.Settles Body.findFixedPoint findFixedPoint Closed
    simp only [hvisited, if_true]
  rw [hsettles]
  cases hno : !visitOnce && sameFacts (mergeEdges fm body.backEdges inputs)
      (fm.mapFactsIn body.id) with
  | true =>
    -- the shortcut: the body is analysed from these inputs, so they are closed
    obtain ⟨-, hsame⟩ := Bool.and_eq_true_iff.mp hno
    have heq := (sameFacts_iff hwf hfm.1.wfIn).mp hsame
    rw [hfm.1.envIn] at heq
    have hfixed : body.round E₀ = E₀ := by
      refine supAll_eq_iff.mpr fun F hF => ?_
      rw [← heq, henv]
      exact le_supAll (.inr hF)
    refine ⟨fun _ => ?_, fun _ => ⟨fm, ?_, (closed_iff hfm).mpr hfixed⟩⟩
    · rw [heq, Function.iterate_fixed hfixed, Function.iterate_fixed hfixed]
    · unfold rounds
      simp only
      rw [if_pos hno]
  | false =>
    obtain ⟨inputs', fm', hin', henv', hana', hr⟩ :=
      rounds_pass 7 hfm.2.coherent hwf rfl hd₁ hno
    rw [hr, ← henv']
    exact rounds_iff (henv' ▸ hana') hin' (henv' ▸ hd₁)

/-- A first visit after `clear_map_visited`: the inputs are not merged with anything, and
the pass over them is not counted. -/
theorem settles_first {E₀ : Env N} (visitOnce : Bool) (hvisited : fm.mapVisited body.id = false)
    (hfm : Analysed body fm E₀) (hin : Wf inputs)
    (hd : Described body.stms.pointers (env inputs)) {n : ℕ}
    (hn : n = if (!visitOnce && sameFacts inputs (fm.mapFactsIn body.id)) = true then 0 else 7) :
    body.Settles visitOnce inputs fm ↔
      ∀ p x, body.flow.Arrives (pointees (env inputs)) (n + 1) p x →
        body.flow.Arrives (pointees (env inputs)) n p x := by
  rw [← round_iterate_eq_iff body n hd]
  unfold Body.Settles Body.findFixedPoint findFixedPoint
  simp only [hvisited, Bool.false_eq_true, if_false]
  split at hn
  · next hsame =>
    -- the shortcut: what is stored is from these inputs, and stays as it is
    subst hn
    obtain ⟨-, hsame'⟩ := Bool.and_eq_true_iff.mp hsame
    have heq := (sameFacts_iff hin hfm.1.wfIn).mp hsame'
    rw [hfm.1.envIn] at heq
    rw [if_pos hsame, heq]
    constructor
    · rintro ⟨fm', hfm', hclosed⟩
      obtain rfl := Option.some.inj hfm'
      exact (closed_iff hfm).mp hclosed
    · exact fun hround => ⟨fm, rfl, (closed_iff hfm).mpr hround⟩
  · next hno =>
    subst hn
    obtain ⟨outputs, fm', hv, hana⟩ := analysed_of_pass hfm.2.coherent hin hd
    rw [if_neg hno, hv]
    exact rounds_iff hana hin hd

/-- The environment the loop of `find_fixed_point` starts from. -/
def Body.firstInputs (body : Body D) (inputs : FactVec (Variable N)) (fm : FactMgr N) :
    FactVec (Variable N) :=
  if fm.mapVisited body.id then mergeEdges fm body.backEdges inputs else inputs

/-- How many flows may be needed from there. -/
def Body.limit (body : Body D) (visitOnce : Bool) (inputs : FactVec (Variable N))
    (fm : FactMgr N) : ℕ :=
  if fm.mapVisited body.id then 6
  else if !visitOnce && sameFacts inputs (fm.mapFactsIn body.id) then 0 else 7

/-- **When the fixed point is reached.** A body that a pass has left analysed is
analysed again, from any environment. The analysis returns before the limit on
its rounds, and the stored input is then closed, exactly where every pointee
that is one flow more than the limit away, from the inputs of the first round,
is at most the limit away: six flows in a body that was visited; in a first visit
seven, or none where it takes the shortcut at once. -/
theorem settles_iff {E₀ : Env N} (visitOnce : Bool) (hfm : Analysed body fm E₀)
    (hd₀ : Described body.stms.pointers E₀) (hin : Wf inputs)
    (hd : Described body.stms.pointers (env inputs)) :
    body.Settles visitOnce inputs fm ↔
      ∀ p x, body.flow.Arrives (pointees (env (body.firstInputs inputs fm)))
          (body.limit visitOnce inputs fm + 1) p x →
        body.flow.Arrives (pointees (env (body.firstInputs inputs fm)))
          (body.limit visitOnce inputs fm) p x := by
  unfold Body.firstInputs Body.limit
  cases hvisited : fm.mapVisited body.id with
  | true => exact settles_visited visitOnce hvisited hfm hd₀ hin hd
  | false => exact settles_first visitOnce hvisited hfm hin hd rfl

end Rounds

/-! ## Generated bodies -/

section Generated

variable {ps : List N} {inputs : FactVec (Variable N)}

omit [DecidableEq N] in
theorem fits_empty [DecidableEq N] {id : ℕ} {holds : Env N → Prop} (hps : ps ≠ []) :
    Fits ps FactMgr.empty id holds := by
  refine ⟨⟨List.nodup_nil, fun a ha => absurd ha List.not_mem_nil⟩, fun hd => ?_⟩
  obtain ⟨p, hp⟩ := List.exists_mem_of_ne_nil ps hps
  obtain ⟨s, hs⟩ := hd p hp
  cases hs

mutual

/-- Where nothing is stored all is coherent. -/
theorem Stm.coherent_empty (s : Stm N) (hps : ps ≠ []) : s.Coherent ps FactMgr.empty := by
  match s with
  | .assign id a => exact fits_empty hps
  | .ifElse id trueId falseId ifTrue ifFalse =>
    exact ⟨fits_empty hps, ⟨fits_empty hps, Stms.coherent_empty ifTrue hps⟩, fits_empty hps,
      Stms.coherent_empty ifFalse hps⟩
  | .cont id => exact trivial

theorem Stms.coherent_empty (ss : Stms N) (hps : ps ≠ []) : ss.Coherent ps FactMgr.empty := by
  match ss with
  | .nil => exact trivial
  | .cons s rest => exact ⟨Stm.coherent_empty s hps, Stms.coherent_empty rest hps⟩

end

/-- What is stored once the statements of a body are generated: each of them was
visited, from the environment the body is entered with. -/
def Body.generated (body : Body D) (inputs : FactVec (Variable N)) : FactMgr N :=
  match body.stms.visit D inputs FactMgr.empty with
  | some (outputs, fm) => fm.record body.id inputs outputs
  | none => FactMgr.empty

/-- **A generated body is analysed.** -/
theorem analysed_generated {body : Body D} (hps : body.stms.pointers ≠ []) (hin : Wf inputs)
    (hd : Described body.stms.pointers (env inputs)) :
    Analysed body (body.generated inputs) (env inputs) ∧
      (body.generated inputs).mapVisited body.id = true := by
  obtain ⟨outputs, fm, hv, hana⟩ :=
    analysed_of_pass (Stms.coherent_empty body.stms hps) hin hd
  unfold Body.generated
  rw [hv]
  exact ⟨hana, Function.update_self _ _ _⟩

end Generated

/-! ## Two bodies -/

/-- Nine pointers, to integers. -/
def ninePointers : ℕ → Decl := fun n =>
  if n < 9 then ⟨.pointer (.simple 4), false⟩ else ⟨.simple 4, false⟩

/-- Each pointer is assigned the next, from `i` on. -/
def copies : ℕ → ℕ → Stms ℕ
  | _, 0 => .nil
  | i, k + 1 => .cons (.assign (i + 1) (.copy i (i + 1))) (copies (i + 1) k)

theorem ninePointers_pointer {n : ℕ} (h : n < 9) : (ninePointers n).type.isPointer = true ∧
    (ninePointers n).isArray = false := by
  unfold ninePointers
  rw [if_pos h]
  exact ⟨rfl, rfl⟩

theorem copies_ok {i k : ℕ} (h : i + k < 9) : (copies i k).Ok ninePointers := by
  induction k generalizing i with
  | zero => exact trivial
  | succ k ih =>
    obtain ⟨hp, harr⟩ := ninePointers_pointer (n := i) (by omega)
    exact ⟨⟨hp, harr, (ninePointers_pointer (by omega)).1⟩, ih (by omega)⟩

/-- Eight copies. -/
def eightCopies : Body ninePointers :=
  ⟨0, copies 0 8, copies_ok (by decide), by decide⟩

/-- Each pointer points to an integer of its own. -/
def ownTargets : FactVec (Variable ℕ) :=
  (List.range 9).map fun i => .pointTo (.named i []) [.named (9 + i) []]

/-- **Eight copies take a round too many**: the last pointer's target arrives at
the first in the eighth. -/
theorem not_settles_eightCopies :
    ¬ eightCopies.Settles false ownTargets (eightCopies.generated ownTargets) := by
  have hnone : (eightCopies.findFixedPoint false ownTargets
      (eightCopies.generated ownTargets)).isNone = true := by decide +kernel
  rintro ⟨fm', hsome, -⟩
  rw [hsome] at hnone
  cases hnone

/-- One pointer is assigned an address. -/
def oneAddress : Body ninePointers :=
  ⟨0, .cons (.assign 1 (.address 0 (.named 9 []))) .nil, ⟨⟨rfl, rfl⟩, trivial⟩, by decide⟩

theorem settles_oneAddress :
    oneAddress.Settles false [.pointTo (.named 0 []) [.null]]
      (oneAddress.generated [.pointTo (.named 0 []) [.null]]) := by
  have hwf : Wf [Fact.pointTo (.named 0 [] : Variable ℕ) [.null]] := by
    refine ⟨List.nodup_singleton _, fun a ha => ?_⟩
    rw [List.mem_singleton.mp ha]
    exact List.nodup_singleton _
  have hd : Described oneAddress.stms.pointers
      (env [Fact.pointTo (.named 0 [] : Variable ℕ) [.null]]) := by
    intro p hp
    rw [List.mem_singleton.mp hp]
    exact ⟨{.null}, rfl⟩
  have hps : oneAddress.stms.pointers ≠ [] := List.cons_ne_nil 0 []
  obtain ⟨hana, hvisited⟩ := analysed_generated hps hwf hd
  refine (settles_iff false hana hd hwf hd).mpr fun p x hx => ?_
  have hlimit : oneAddress.limit false [.pointTo (.named 0 []) [.null]]
      (oneAddress.generated [.pointTo (.named 0 []) [.null]]) = 6 := if_pos hvisited
  rw [hlimit] at hx ⊢
  have hflow : ∀ q s, oneAddress.flow q s →
      q = 0 ∧ s = .new (.named 9 []) ∨ q ≠ 0 ∧ s = .old q := by
    rintro q s (h | h)
    · rcases h with h | ⟨m, h, -⟩
      · exact h.elim
      · exact h.elim
    · obtain ⟨m, rfl, h⟩ := h
      exact h
  cases hx with
  | here h => exact .here h
  | new h => exact .new h
  | old h ha =>
    rcases hflow _ _ h with ⟨-, hs⟩ | ⟨-, hs⟩
    · cases hs
    · cases hs
      exact ha

end Loop

end Facts

end CLSmith
