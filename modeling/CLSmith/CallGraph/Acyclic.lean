import CLSmith.CallGraph
import CLSmith.Common.Ranked
/-!
# No recursion

A function under construction is not called: `choose_func` takes a function
only if its effect is known, so a call leads to a function that was complete
before. The call graph has no cycle, not even between the steps, and the
nesting of calls at run time is bounded by the number of functions. Where
`make_first` returns, every function is built.
-/

namespace CLSmith

namespace CallGraph

open Common

variable {o : Options} {σ σ' : State} {f g : ℕ} {fr : Frame} {s rest : List Frame}

/-! ## The stack -/

/-- The function a frame is for. -/
def Frame.func : Frame → ℕ
  | .arguments f => f
  | .body f => f

/-- How far it is. -/
def Frame.state : Frame → BuildState
  | .arguments _ => .unbuilt
  | .body _ => .building

theorem mem_of_currentFunc (h : State.currentFunc s = some g) : Frame.body g ∈ s := by
  induction s with
  | nil => exact absurd h (by simp [State.currentFunc])
  | cons fr s ih =>
    cases fr with
    | arguments f => exact List.mem_cons_of_mem _ (ih h)
    | body f =>
      obtain rfl := Option.some.inj h
      exact List.mem_cons_self

theorem mem_of_getOneFunction {l : List ℕ} {i : ℕ} (h : State.getOneFunction l i = some f) :
    f ∈ l := by
  unfold State.getOneFunction at h
  split at h
  · exact absurd h (by simp)
  · obtain rfl := Option.some.inj h
    exact List.mem_singleton_self _
  · exact List.mem_of_getElem? h

/-- What is chosen is built. -/
theorem chooseFunc_spec {accepts : ℕ → Bool} {coin : Bool} {i : ℕ}
    (h : σ.chooseFunc o accepts coin i = some f) :
    f < σ.size ∧ (σ.func f).buildState = .built := by
  have key : ∀ p : ℕ → Bool, f ∈ ((List.range σ.size).filter fun f =>
      accepts f && (σ.func f).isEffectKnown).filter p → f < σ.size ∧
        (σ.func f).buildState = .built := by
    intro p hf
    have hok := List.mem_filter.mp (List.mem_filter.mp hf).1
    simp only [List.mem_range, Function.isEffectKnown, Bool.and_eq_true, decide_eq_true_eq] at hok
    exact ⟨hok.1, hok.2.2⟩
  unfold State.chooseFunc at h
  dsimp only at h
  split at h
  · next f' hf' =>
    obtain rfl := Option.some.inj h
    split at hf'
    · exact key _ (mem_of_getOneFunction hf')
    · exact absurd hf' (by simp)
  · exact key _ (mem_of_getOneFunction h)

/-! ## Updates -/

section Updates

variable {F : Function} {b : BuildState}

theorem newFunction_new : (σ.newFunction F).func σ.size = F := by
  simp [State.newFunction]

theorem newFunction_old (hf : f ≠ σ.size) : (σ.newFunction F).func f = σ.func f := by
  simp [State.newFunction, hf]

theorem setBuildState_new : ((σ.setBuildState f b).func f).buildState = b := by
  simp [State.setBuildState]

theorem setBuildState_old (hg : g ≠ f) : (σ.setBuildState f b).func g = σ.func g := by
  simp [State.setBuildState, hg]

theorem setBuildState_calls : (σ.setBuildState f b).Calls = σ.Calls := by
  funext a c
  unfold State.Calls State.setBuildState
  by_cases ha : a = f
  · subst ha
    simp
  · simp [ha]

end Updates

/-! ## The invariant -/

/-- **What holds between the steps.** Only functions that are built are called, and
they are ranked below their callers; those that are not are on the stack, each once. -/
structure Inv (o : Options) (σ : State) : Prop where
  fmList : σ.fmList = List.range σ.size
  outside : ∀ f, σ.size ≤ f → σ.func f = {}
  ranked : Ranked σ.Calls fun f => (σ.func f).buildState = .built
  nodup : (σ.stack.map Frame.func).Nodup
  frames : ∀ fr ∈ σ.stack, fr.func < σ.size ∧ (σ.func fr.func).buildState = fr.state
  opened : ∀ f < σ.size, (σ.func f).buildState ≠ .built → f ∈ σ.stack.map Frame.func
  count : σ.size ≤ σ.builtinFunctionsCnt + max 1 o.maxFuncs
  builtin : ∀ f < σ.builtinFunctionsCnt, (σ.func f).buildState = .built ∧ (σ.func f).calls = []
  atBuiltins : σ.phase = .builtins → σ.size = σ.builtinFunctionsCnt
  past : σ.phase ≠ .builtins → σ.builtinFunctionsCnt < σ.size
  atFirst : σ.phase = .first → σ.stack.getLast? = some (.body σ.builtinFunctionsCnt)
  closed : σ.phase ≠ .first → σ.stack = []
  uncalled : ∀ g, ¬ σ.Calls g σ.builtinFunctionsCnt

namespace Inv

theorem init : Inv o {} where
  fmList := rfl
  outside _ _ := rfl
  ranked := Ranked.of_empty fun _ _ => List.not_mem_nil
  nodup := List.nodup_nil
  frames _ h := absurd h List.not_mem_nil
  opened _ h := absurd h (Nat.not_lt_zero _)
  count := Nat.zero_le _
  builtin _ h := absurd h (Nat.not_lt_zero _)
  atBuiltins _ := rfl
  past h := absurd rfl h
  atFirst h := absurd h (by simp)
  closed _ := rfl
  uncalled _ := List.not_mem_nil

variable (h : Inv o σ)
include h

/-- A function that is built is one there is. -/
theorem lt_of_built (hf : (σ.func f).buildState = .built) : f < σ.size := by
  by_contra hlt
  rw [h.outside f (not_lt.mp hlt)] at hf
  exact absurd hf (by simp)

theorem built_of_calls (hgf : σ.Calls g f) : (σ.func f).buildState = .built :=
  h.ranked.done_of_edge hgf

/-- There is no call out of a function that is not there. -/
theorem not_calls_size : ¬ σ.Calls σ.size f := by
  unfold State.Calls
  rw [h.outside _ le_rfl]
  exact List.not_mem_nil

/-- In `make_first` the first function is under construction. -/
theorem first_building (hfirst : σ.phase = .first) :
    (σ.func σ.builtinFunctionsCnt).buildState = .building :=
  (h.frames _ (List.mem_of_getLast? (h.atFirst hfirst))).2

/-- Something is under way only in `make_first`. -/
theorem phase_eq_first (hstack : σ.stack ≠ []) : σ.phase = .first := by
  by_contra hne
  exact hstack (h.closed hne)

/-- With nothing under way, every function is built. -/
theorem built_of_closed (hstack : σ.stack = []) (hf : f < σ.size) :
    (σ.func f).buildState = .built := by
  by_contra hopen
  have := h.opened f hf hopen
  rw [hstack] at this
  exact absurd this List.not_mem_nil

/-! ## The steps -/

/-- The calls of a body under construction: some that were there, and new ones of built
functions. -/
theorem setCalls {calls : List ℕ} (hg : .body g ∈ σ.stack)
    (hcalls : ∀ c ∈ calls, σ.Calls g c ∨
      (σ.func c).buildState = .built ∧ c ≠ σ.builtinFunctionsCnt) :
    Inv o (σ.setCalls g calls) := by
  obtain ⟨hlt, hopen⟩ := h.frames _ hg
  simp only [Frame.func, Frame.state] at hlt hopen
  have hstate : ∀ f, ((σ.setCalls g calls).func f).buildState = (σ.func f).buildState := by
    intro f
    by_cases hf : f = g
    · subst hf
      simp [State.setCalls]
    · simp [State.setCalls, hf]
  have hnew : ∀ a b, (σ.setCalls g calls).Calls a b → σ.Calls a b ∨
      a = g ∧ (σ.func b).buildState = .built ∧ b ≠ σ.builtinFunctionsCnt := by
    intro a b hab
    by_cases ha : a = g
    · subst ha
      simp only [State.Calls, State.setCalls, Function.update_self] at hab
      exact (hcalls b hab).imp id fun hb => ⟨rfl, hb⟩
    · simp only [State.Calls, State.setCalls, Function.update_of_ne ha] at hab
      exact .inl hab
  refine ⟨h.fmList, fun f hf => ?_, ?_, h.nodup, fun fr hfr => ?_, fun f hf hne => ?_, h.count,
    fun f hf => ?_, h.atBuiltins, h.past, h.atFirst, h.closed, fun a ha => ?_⟩
  · have hne : f ≠ g := by
      rintro rfl
      exact absurd hlt (not_lt.mpr hf)
    simpa [State.setCalls, hne] using h.outside f hf
  · refine h.ranked.mono (fun a => by rw [hstate]) fun a b hab => ?_
    rcases hnew a b hab with hold | ⟨rfl, hb, -⟩
    · exact .inl hold
    -- a call of what is built, by what is not, keeps the ranks
    · exact .inr ⟨by rw [hopen]; decide, hb⟩
  · rw [hstate]
    exact h.frames fr hfr
  · rw [hstate] at hne
    exact h.opened f hf hne
  · have hne : f ≠ g := by
      rintro rfl
      exact absurd ((h.builtin f hf).1.symm.trans hopen) (by decide)
    simpa [State.setCalls, hne] using h.builtin f hf
  · rcases hnew _ _ ha with hold | ⟨-, -, hb⟩
    · exact h.uncalled a hold
    · exact hb rfl

theorem addCall (hf : (σ.func f).buildState = .built) (hne : f ≠ σ.builtinFunctionsCnt) :
    Inv o (σ.addCall f) := by
  unfold State.addCall
  cases hg : State.currentFunc σ.stack with
  | none => exact h
  | some g =>
    refine h.setCalls (mem_of_currentFunc hg) fun c hc => ?_
    rcases List.mem_append.mp hc with hold | hlast
    · exact .inl hold
    · obtain rfl := List.mem_singleton.mp hlast
      exact .inr ⟨hf, hne⟩

/-- A new function that calls none. -/
theorem newFunction_calls {b : Bool} {st : BuildState} {a : ℕ} :
    (σ.newFunction ⟨b, st, []⟩).Calls a f ↔ σ.Calls a f := by
  unfold State.Calls State.newFunction
  by_cases ha : a = σ.size
  · subst ha
    simp [h.outside _ le_rfl]
  · simp [ha]

/-- `makeBuiltin`. -/
theorem makeBuiltin (hphase : σ.phase = .builtins) :
    Inv o { σ.newFunction ⟨true, .built, []⟩ with
      builtinFunctionsCnt := σ.builtinFunctionsCnt + 1 } := by
  have hsize := h.atBuiltins hphase
  have hstack := h.closed (by rw [hphase]; decide)
  have hold : ∀ f, f ≠ σ.size → (σ.newFunction ⟨true, .built, []⟩).func f = σ.func f :=
    fun f hf => newFunction_old hf
  have hnew : (σ.newFunction ⟨true, .built, []⟩).func σ.size = ⟨true, .built, []⟩ := newFunction_new
  have hrange : σ.fmList ++ [σ.size] = List.range (σ.size + 1) := by
    rw [h.fmList, List.range_succ]
  refine ⟨hrange, fun f hf => ?_, ?_, h.nodup, fun fr hfr => ?_, fun f hf hne => ?_, ?_,
    fun f hf => ?_, fun _ => ?_, fun hne => absurd hphase hne, fun hf => ?_, fun _ => hstack,
    fun a ha => ?_⟩
  · have hlt : σ.size + 1 ≤ f := hf
    exact (hold f (by omega)).trans (h.outside f (by omega))
  · -- the new one is finished at once
    have hunbuilt : ¬ (σ.func σ.size).buildState = .built := by
      rw [h.outside _ le_rfl]
      decide
    have hfin : {b | σ.Calls σ.size b}.Finite := by
      convert Set.finite_empty
      exact Set.eq_empty_of_forall_notMem fun b => h.not_calls_size
    refine (h.ranked.finish hunbuilt hfin).mono (fun a => ?_) fun a b hab => .inl ?_
    · by_cases ha : a = σ.size
      · subst ha
        exact ⟨fun _ => .inr rfl, fun _ => congrArg Function.buildState hnew⟩
      · have := hold a ha
        simp only [this, ha, or_false]
    · exact h.newFunction_calls.mp hab
  · exact absurd (hstack ▸ hfr : fr ∈ []) List.not_mem_nil
  · refine absurd ?_ hne
    by_cases hf' : f = σ.size
    · subst hf'
      exact congrArg Function.buildState hnew
    · have hlt : f < σ.size + 1 := hf
      exact (congrArg Function.buildState (hold f hf')).trans
        (h.built_of_closed hstack (by omega))
  · have := h.count
    change σ.size + 1 ≤ σ.builtinFunctionsCnt + 1 + max 1 o.maxFuncs
    omega
  · have hlt : f < σ.builtinFunctionsCnt + 1 := hf
    by_cases hf' : f = σ.size
    · subst hf'
      exact ⟨congrArg Function.buildState hnew, congrArg Function.calls hnew⟩
    · have := hold f hf'
      simp only [this]
      exact h.builtin f (by omega)
  · change σ.size + 1 = σ.builtinFunctionsCnt + 1
    omega
  · exact absurd (hphase.symm.trans hf) (by decide)
  · have := h.lt_of_built (h.built_of_calls (h.newFunction_calls.mp ha))
    change σ.builtinFunctionsCnt + 1 < σ.size at this
    omega

/-- `makeFirst` and `makeSignature`: a new function that is not built, and its frame. -/
theorem push (fr : Frame) (hfr : fr.func = σ.size)
    (hcount : σ.size < σ.builtinFunctionsCnt + max 1 o.maxFuncs)
    (hlast : (fr :: σ.stack).getLast? = some (.body σ.builtinFunctionsCnt)) :
    Inv o { σ.newFunction ⟨false, fr.state, []⟩ with
      phase := .first, stack := fr :: σ.stack } := by
  have hold : ∀ f, f ≠ σ.size → (σ.newFunction ⟨false, fr.state, []⟩).func f = σ.func f :=
    fun f hf => newFunction_old hf
  have hnew : (σ.newFunction ⟨false, fr.state, []⟩).func σ.size = ⟨false, fr.state, []⟩ :=
    newFunction_new
  have hstate : fr.state ≠ .built := by cases fr <;> simp [Frame.state]
  have hrange : σ.fmList ++ [σ.size] = List.range (σ.size + 1) := by
    rw [h.fmList, List.range_succ]
  have hle : σ.builtinFunctionsCnt ≤ σ.size := by
    by_cases hp : σ.phase = .builtins
    · exact (h.atBuiltins hp).ge
    · exact (h.past hp).le
  have hfresh : σ.size ∉ σ.stack.map Frame.func := by
    intro hmem
    obtain ⟨fr', hfr', heq⟩ := List.mem_map.mp hmem
    exact absurd ((h.frames fr' hfr').1) (by omega)
  refine ⟨hrange, fun f hf => ?_, ?_, ?_, fun fr' hfr' => ?_, fun f hf hne => ?_, hcount,
    fun f hf => ?_, fun hp => absurd hp (by simp), fun _ => Nat.lt_succ_of_le hle, fun _ => hlast,
    fun hp => absurd rfl hp, fun a ha => ?_⟩
  · have hlt : σ.size + 1 ≤ f := hf
    exact (hold f (by omega)).trans (h.outside f (by omega))
  -- the new function calls nobody and is called by nobody
  · refine h.ranked.mono (fun a => ?_) fun a b hab => .inl (h.newFunction_calls.mp hab)
    by_cases ha : a = σ.size
    · subst ha
      simp only [hnew, h.outside _ le_rfl]
      exact ⟨fun hb => absurd hb hstate, fun hb => absurd hb (by decide)⟩
    · simp only [hold a ha]
  · rw [List.map_cons, hfr]
    exact List.nodup_cons.mpr ⟨hfresh, h.nodup⟩
  · rcases List.mem_cons.mp hfr' with rfl | hin
    · refine ⟨?_, ?_⟩
      · change fr'.func < σ.size + 1
        omega
      · rw [hfr]
        exact congrArg Function.buildState hnew
    · obtain ⟨hlt, hst⟩ := h.frames fr' hin
      refine ⟨Nat.lt_succ_of_lt hlt, ?_⟩
      exact (congrArg Function.buildState (hold fr'.func (by omega))).trans hst
  · rw [List.map_cons]
    by_cases hf' : f = σ.size
    · rw [hf', ← hfr]
      exact List.mem_cons_self
    · have hlt : f < σ.size + 1 := hf
      refine List.mem_cons_of_mem _ (h.opened f (by omega) fun hb => hne ?_)
      exact (congrArg Function.buildState (hold f hf')).trans hb
  · have hlt : f < σ.builtinFunctionsCnt := hf
    have := hold f (by omega)
    simp only [this]
    exact h.builtin f hlt
  · exact h.uncalled a (h.newFunction_calls.mp ha)

/-- `generateBody`: the arguments are complete. -/
theorem generateBody (hstack : σ.stack = .arguments f :: rest) :
    Inv o { σ.setBuildState f .building with stack := .body f :: rest } := by
  obtain ⟨hlt, hunbuilt⟩ := h.frames (.arguments f) (by rw [hstack]; exact List.mem_cons_self)
  simp only [Frame.func, Frame.state] at hlt hunbuilt
  have hnodup := h.nodup
  rw [hstack, List.map_cons, List.nodup_cons] at hnodup
  have hrest : rest ≠ [] := by
    rintro rfl
    have := h.atFirst (h.phase_eq_first (by rw [hstack]; exact List.cons_ne_nil _ _))
    rw [hstack] at this
    exact absurd (Option.some.inj this) (by simp)
  refine ⟨h.fmList, fun f' hf' => ?_, ?_, ?_, fun fr hfr => ?_, fun f' hf' hne => ?_, h.count,
    fun f' hf' => ?_, h.atBuiltins, h.past, fun hp => ?_, fun hp => ?_, fun a ha => ?_⟩
  · exact (setBuildState_old (fun he => absurd hlt (by rw [← he]; exact not_lt.mpr hf'))).trans
      (h.outside f' hf')
  -- neither the calls nor what is built change with it
  · refine h.ranked.mono (fun a => ?_) fun a b hab => .inl (setBuildState_calls ▸ hab)
    by_cases ha : a = f
    · subst ha
      simp only [setBuildState_new, hunbuilt]
      decide
    · simp only [setBuildState_old ha]
  · exact List.nodup_cons.mpr hnodup
  · rcases List.mem_cons.mp hfr with rfl | hin
    · exact ⟨hlt, setBuildState_new⟩
    · have hne : fr.func ≠ f := by
        intro he
        have hmem := List.mem_map_of_mem (f := Frame.func) hin
        rw [he] at hmem
        exact hnodup.1 hmem
      obtain ⟨hlt', hst⟩ := h.frames fr (by rw [hstack]; exact List.mem_cons_of_mem _ hin)
      exact ⟨hlt', (congrArg Function.buildState (setBuildState_old hne)).trans hst⟩
  · by_cases hf'' : f' = f
    · rw [hf'']
      exact List.mem_cons_self
    · have := h.opened f' hf' fun hb =>
        hne ((congrArg Function.buildState (setBuildState_old hf'')).trans hb)
      rwa [hstack] at this
  · have hne : f' ≠ f := by
      rintro rfl
      exact absurd ((h.builtin f' hf').1.symm.trans hunbuilt) (by decide)
    simp only [setBuildState_old hne]
    exact h.builtin f' hf'
  · have := h.atFirst hp
    rw [hstack] at this
    obtain ⟨fr, rest', rfl⟩ := List.exists_cons_of_ne_nil hrest
    rwa [List.getLast?_cons_cons] at this ⊢
  · have := h.closed hp
    rw [hstack] at this
    exact absurd this (List.cons_ne_nil _ _)
  · exact h.uncalled a (setBuildState_calls ▸ ha)

/-- `finishBody`, up to the caller's share. -/
theorem finishBody (hstack : σ.stack = .body f :: rest) :
    Inv o { σ.setBuildState f .built with
      stack := rest, phase := if rest = [] then .loop 0 else σ.phase } := by
  obtain ⟨hlt, hbuilding⟩ := h.frames (.body f) (by rw [hstack]; exact List.mem_cons_self)
  simp only [Frame.func, Frame.state] at hlt hbuilding
  have hfirst := h.phase_eq_first (by rw [hstack]; exact List.cons_ne_nil _ _)
  have hnodup := h.nodup
  rw [hstack, List.map_cons, List.nodup_cons] at hnodup
  have hpast := h.past (by rw [hfirst]; decide)
  refine ⟨h.fmList, fun f' hf' => ?_, ?_, hnodup.2, fun fr hfr => ?_, fun f' hf' hne => ?_, h.count,
    fun f' hf' => ?_, fun hp => ?_, fun _ => hpast, fun hp => ?_, fun hp => ?_, fun a ha => ?_⟩
  · exact (setBuildState_old (fun he => absurd hlt (by rw [← he]; exact not_lt.mpr hf'))).trans
      (h.outside f' hf')
  -- what it calls is built and has a rank, so that it can be put above all of that
  · have hfin : {b | σ.Calls f b}.Finite := (σ.func f).calls.finite_toSet
    refine (h.ranked.finish (by rw [hbuilding]; decide) hfin).mono (fun a => ?_)
      fun a b hab => .inl (setBuildState_calls ▸ hab)
    by_cases ha : a = f
    · subst ha
      exact ⟨fun _ => .inr rfl, fun _ => setBuildState_new⟩
    · simp only [setBuildState_old ha, ha, or_false]
  · have hne : fr.func ≠ f := by
      intro he
      have hmem := List.mem_map_of_mem (f := Frame.func) hfr
      rw [he] at hmem
      exact hnodup.1 hmem
    obtain ⟨hlt', hst⟩ := h.frames fr (by rw [hstack]; exact List.mem_cons_of_mem _ hfr)
    exact ⟨hlt', (congrArg Function.buildState (setBuildState_old hne)).trans hst⟩
  · have hf'' : f' ≠ f := by
      rintro rfl
      exact hne setBuildState_new
    have := h.opened f' hf' fun hb =>
      hne ((congrArg Function.buildState (setBuildState_old hf'')).trans hb)
    rw [hstack, List.map_cons] at this
    exact (List.mem_cons.mp this).resolve_left hf''
  · have hne : f' ≠ f := by
      rintro rfl
      exact absurd ((h.builtin f' hf').1.symm.trans hbuilding) (by decide)
    simp only [setBuildState_old hne]
    exact h.builtin f' hf'
  · change (if rest = [] then Phase.loop 0 else σ.phase) = .builtins at hp
    rw [hfirst] at hp
    split at hp <;> exact absurd hp (by decide)
  · change (if rest = [] then Phase.loop 0 else σ.phase) = .first at hp
    have hrest : rest ≠ [] := by
      rintro rfl
      exact absurd hp (by simp)
    have hlast := h.atFirst hfirst
    rw [hstack] at hlast
    obtain ⟨fr, rest', rfl⟩ := List.exists_cons_of_ne_nil hrest
    rwa [List.getLast?_cons_cons] at hlast
  · change (if rest = [] then Phase.loop 0 else σ.phase) ≠ .first at hp
    by_contra hrest
    rw [if_neg hrest] at hp
    exact hp hfirst
  · exact h.uncalled a (setBuildState_calls ▸ ha)

/-- With nothing under way, `GenerateFunctions` only counts on. -/
theorem setPhase (hphase : ∃ i, σ.phase = .loop i) {phase : Phase} (hne : phase ≠ .builtins)
    (hne' : phase ≠ .first) : Inv o { σ with phase := phase } := by
  obtain ⟨i, hi⟩ := hphase
  exact { h with
    atBuiltins := fun hp => absurd hp hne
    past := fun _ => h.past (by rw [hi]; exact Phase.noConfusion)
    atFirst := fun hp => absurd hp hne'
    closed := fun _ => h.closed (by rw [hi]; exact Phase.noConfusion) }

/-- **The step lemma.** -/
theorem step {e : Event} (hstep : CallGraph.step o σ e = some σ') : Inv o σ' := by
  cases e with
  | makeBuiltin =>
    simp only [CallGraph.step] at hstep
    split at hstep
    · next hp =>
      obtain rfl := Option.some.inj hstep
      exact h.makeBuiltin hp.1
    · exact absurd hstep (by simp)
  | makeFirst =>
    simp only [CallGraph.step] at hstep
    split at hstep
    · next hp =>
      obtain rfl := Option.some.inj hstep
      have hsize := h.atBuiltins hp
      have hstack := h.closed (by rw [hp]; decide)
      have := h.push (.body σ.size) rfl (by omega) (by rw [hstack, hsize]; rfl)
      rwa [hstack] at this
    · exact absurd hstep (by simp)
  | makeSignature =>
    simp only [CallGraph.step] at hstep
    split at hstep
    · exact absurd hstep (by simp)
    · next hno =>
      obtain rfl := Option.some.inj hstep
      obtain ⟨hstack, hmax⟩ := not_or.mp hno
      have hfirst := h.phase_eq_first hstack
      have hcount : σ.size < σ.builtinFunctionsCnt + max 1 o.maxFuncs := by
        simp only [State.reachMaxFunctionsCnt, decide_eq_true_eq, not_le] at hmax
        omega
      obtain ⟨fr, rest, hcons⟩ := List.exists_cons_of_ne_nil hstack
      have := h.push (.arguments σ.size) rfl hcount (by
        rw [hcons, List.getLast?_cons_cons, ← hcons]
        exact h.atFirst hfirst)
      rwa [← hfirst] at this
  | generateBody =>
    simp only [CallGraph.step] at hstep
    split at hstep
    · next f rest hstack =>
      have hunbuilt : (σ.func f).buildState = .unbuilt :=
        (h.frames (.arguments f) (by rw [hstack]; exact List.mem_cons_self)).2
      rw [if_neg (not_not.mpr hunbuilt)] at hstep
      obtain rfl := Option.some.inj hstep
      exact h.generateBody hstack
    · exact absurd hstep (by simp)
  | finishBody =>
    simp only [CallGraph.step] at hstep
    split at hstep
    · next f rest hstack =>
      have hfirst := h.phase_eq_first (by rw [hstack]; exact List.cons_ne_nil _ _)
      have hdone := h.finishBody hstack
      split at hstep
      · next hrest =>
        obtain rfl := Option.some.inj hstep
        rw [if_pos (show (σ.setBuildState f .built).phase = .first from hfirst)]
        rwa [if_pos hrest] at hdone
      · next hrest =>
        obtain rfl := Option.some.inj hstep
        rw [if_neg hrest] at hdone
        refine hdone.addCall setBuildState_new fun he => ?_
        -- the first function is at the bottom of the stack still
        change f = σ.builtinFunctionsCnt at he
        have hlast := h.atFirst hfirst
        have hnodup := h.nodup
        rw [hstack] at hlast hnodup
        obtain ⟨fr, rest', rfl⟩ := List.exists_cons_of_ne_nil hrest
        rw [List.getLast?_cons_cons] at hlast
        have hmem := List.mem_map_of_mem (f := Frame.func) (List.mem_of_getLast? hlast)
        rw [← he] at hmem
        exact (List.nodup_cons.mp hnodup).1 hmem
    · exact absurd hstep (by simp)
  | buildInvocation accepts coin index =>
    simp only [CallGraph.step] at hstep
    split at hstep
    · exact absurd hstep (by simp)
    · next hstack =>
      obtain ⟨f, hf, rfl⟩ := Option.map_eq_some_iff.mp hstep
      have hbuilt := (chooseFunc_spec hf).2
      refine h.addCall hbuilt fun he => ?_
      rw [he, h.first_building (h.phase_eq_first hstack)] at hbuilt
      exact absurd hbuilt (by decide)
  | discard kept =>
    simp only [CallGraph.step] at hstep
    split at hstep
    · next g hg =>
      split at hstep
      · next hsub =>
        obtain rfl := Option.some.inj hstep
        exact h.setCalls (mem_of_currentFunc hg) fun c hc => .inl (hsub.subset hc)
      · exact absurd hstep (by simp)
    · exact absurd hstep (by simp)
  | next =>
    simp only [CallGraph.step] at hstep
    split at hstep
    · next i hi =>
      split at hstep
      · exact absurd hstep (by simp)
      · next hstack =>
        have hstack := not_not.mp hstack
        split at hstep
        · obtain rfl := Option.some.inj hstep
          exact h.setPhase ⟨i, hi⟩ Phase.noConfusion Phase.noConfusion
        · next hlt =>
          have hbuilt := h.built_of_closed hstack (not_le.mp hlt)
          rw [if_pos (by simp [Function.isBuilt, hbuilt])] at hstep
          obtain rfl := Option.some.inj hstep
          exact h.setPhase ⟨i, hi⟩ Phase.noConfusion Phase.noConfusion
    · exact absurd hstep (by simp)

end Inv

theorem inv_of_reachable (h : (system o).Reachable σ) : Inv o σ :=
  invariant_of_events (I := Inv o) Inv.init (fun _ _ _ hσ he => hσ.step he) h

/-! ## The call graph -/

/-- A caller is not built in. -/
theorem Inv.le_of_calls (h : Inv o σ) (hgf : σ.Calls g f) : σ.builtinFunctionsCnt ≤ g := by
  by_contra hlt
  have hnone := (h.builtin g (not_le.mp hlt)).2
  rw [State.Calls, hnone] at hgf
  exact absurd hgf List.not_mem_nil

theorem Inv.lt_of_calls (h : Inv o σ) (hgf : σ.Calls g f) : g < σ.size := by
  by_contra hlt
  have hnone := h.outside g (not_lt.mp hlt)
  rw [State.Calls, hnone] at hgf
  exact absurd hgf List.not_mem_nil

/-- All but the last on a path are callers. -/
theorem exists_calls_of_mem_dropLast {l : List ℕ} (hl : l.IsChain σ.Calls)
    (hg : g ∈ l.dropLast) : ∃ f, σ.Calls g f := by
  induction l with
  | nil => exact absurd hg List.not_mem_nil
  | cons a l ih =>
    cases l with
    | nil => exact absurd hg List.not_mem_nil
    | cons b l =>
      rw [List.isChain_cons_cons] at hl
      rcases List.mem_cons.mp hg with rfl | hin
      · exact ⟨b, hl.1⟩
      · exact ih hl.2 hin

/-- **Nested calls are bounded**: functions that are not built in, and one more. -/
theorem Inv.length_le (h : Inv o σ) {l : List ℕ} (hl : l.IsChain σ.Calls) :
    l.length ≤ max 1 o.maxFuncs + 1 := by
  have hnodup : l.dropLast.Nodup := (h.ranked.nodup_of_isChain hl).sublist l.dropLast_sublist
  have hsub : l.dropLast ⊆
      List.range' σ.builtinFunctionsCnt (σ.size - σ.builtinFunctionsCnt) := by
    intro g hg
    obtain ⟨f, hf⟩ := exists_calls_of_mem_dropLast hl hg
    have hle := h.le_of_calls hf
    have hlt := h.lt_of_calls hf
    rw [List.mem_range'_1]
    omega
  have hlen := (hnodup.subperm hsub).length_le
  have hcount := h.count
  rw [List.length_range', List.length_dropLast] at hlen
  omega

/-- **No recursion.** In every state of the generation, no function calls itself,
directly or through others, nobody calls the first one, nested calls are no more than
the functions there may be, and each function has its own `FactMgr`. Past `make_first`
every function is built, so that the loop of `GenerateFunctions` generates nothing. -/
theorem calls_reachable (h : (system o).Reachable σ) :
    (∀ f, ¬ Relation.TransGen σ.Calls f f) ∧
    (σ.phase ≠ .builtins → σ.getFirstFunction < σ.size ∧
      ∀ g, ¬ σ.Calls g σ.getFirstFunction) ∧
    (∀ l : List ℕ, l.IsChain σ.Calls → l.length ≤ max 1 o.maxFuncs + 1) ∧
    σ.size ≤ σ.builtinFunctionsCnt + max 1 o.maxFuncs ∧
    (∀ f < σ.size, σ.getFactMgrForFunc f = some f) ∧
    (σ.phase ≠ .first → σ.stack = [] ∧ ∀ f < σ.size, (σ.func f).isBuilt = true) := by
  have hinv := inv_of_reachable h
  refine ⟨fun f => hinv.ranked.acyclic, fun hp => ⟨hinv.past hp, hinv.uncalled⟩,
    fun l hl => hinv.length_le hl, hinv.count, fun f hf => ?_, fun hp => ?_⟩
  · unfold State.getFactMgrForFunc
    rw [if_pos hf, hinv.fmList]
    simp [hf]
  · have hstack := hinv.closed hp
    exact ⟨hstack, fun f hf => by simp [Function.isBuilt, hinv.built_of_closed hstack hf]⟩

/-- `func_1` calls `func_2` as it makes it, with a call of `func_3` among the arguments,
and calls `func_3` once more. -/
def nestedEvents : List Event :=
  [.makeFirst, .makeSignature, .makeSignature, .generateBody, .finishBody, .generateBody,
    .buildInvocation (fun f => f == 2) false 0, .finishBody,
    .buildInvocation (fun _ => true) true 1,
    .finishBody, .next]

theorem calls_reachable_nested : ∃ σ, runEvents (step {}) {} nestedEvents = some σ ∧
    (∀ f < 3, (σ.func f).calls = [[2, 1, 2], [2], []].getD f []) ∧
    ∀ f, ¬ Relation.TransGen σ.Calls f f := by
  obtain ⟨σ, hσ⟩ : ∃ σ, runEvents (step {}) {} nestedEvents = some σ := ⟨_, rfl⟩
  refine ⟨σ, hσ, ?_, (calls_reachable (reachable_runEvents (.init rfl) hσ)).1⟩
  cases hσ
  decide

end CallGraph

end CLSmith
