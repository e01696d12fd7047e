import CLSmith.Effect.Access
import CLSmith.Effect.Conflict
/-!
# What a rejected access records

An access that is rejected has recorded what it read before. `read_pointed` and
`write_pointed` take it back from the effect of the context where a level of the
dereference fails, but not from the effect of the statement, and not where an
index expression fails.
-/

namespace CLSmith

namespace Effects

open Facts

variable {N : Type} [DecidableEq N]

/-- What is recorded in an effect. A volatile access is recorded beside the variable
that was read or written. -/
inductive Event (N : Type)
  | read (v : Variable N)
  | write (v : Variable N)
  | volatile

/-- What an access comes to, and what it leaves recorded in the effect of the
context and in that of the statement. -/
structure Outcome (N : Type) where
  ok : Bool
  accum : List (Event N) := []
  stm : List (Event N) := []

namespace Outcome

/-- An access without a trace. -/
def check (ok : Bool) : Outcome N := ⟨ok, [], []⟩

/-- An access that records one event where it is allowed. -/
def event (ok : Bool) (e : Event N) : Outcome N := if ok then ⟨true, [e], [e]⟩ else ⟨false, [], []⟩

/-- One access, and another where the first is not rejected. -/
def andThen (r r' : Outcome N) : Outcome N :=
  if r.ok then ⟨r'.ok, r.accum ++ r'.accum, r.stm ++ r'.stm⟩ else r

/-- A dereference, behind its index expressions: where it is rejected, the effect
of the context is as before these. -/
def pointed (r r' : Outcome N) : Outcome N :=
  if r.ok then
    if r'.ok then ⟨true, r.accum ++ r'.accum, r.stm ++ r'.stm⟩ else ⟨false, [], r.stm ++ r'.stm⟩
  else r

/-- An operand: where it is rejected, it leaves nothing. -/
def operand (r : Outcome N) : Outcome N := if r.ok then ⟨true, r.accum, r.accum⟩ else check false

end Outcome

section

variable (D : N → Decl) (Q : AccessQualifiers N)

/-- One event in an effect. -/
def Effect.record (x : Effect N) : Event N → Effect N
  | .read v => x.readVar D Q v
  | .write v => x.writeVar D Q v
  | .volatile => { x with sideEffectFree := false }

/-- Events in an effect, one after the other. -/
def Effect.recordAll (x : Effect N) (events : List (Event N)) : Effect N :=
  events.foldl (fun x e => x.record D Q e) x

/-- What an access leaves in both effects. -/
def EffectState.leave (s : EffectState N) (r : Outcome N) : EffectState N :=
  ⟨s.effectAccum.map fun x => x.recordAll D Q r.accum, s.effectStm.recordAll D Q r.stm⟩

variable (o : DereferenceOptions) (facts : FactVec (Variable N))

namespace AccessContext

/-- The outcome of the loop over the pointees of a level. -/
def pointeesOutcome (check : Variable N → Outcome N) : List (Variable N) → Outcome N
  | [] => .check true
  | pointee :: rest =>
    if pointee.isSpecialPtr then pointeesOutcome check rest
    else (check pointee).andThen (pointeesOutcome check rest)

/-- The outcome of the loop over the levels of a dereference. -/
def pointersOutcome (check : ℕ → Variable N → Outcome N) : ℕ → List (Variable N) → Outcome N
  | 0, _ => .check true
  | indirect + 1, tmp =>
    let tmp := mergePointeesOfPointers facts [] tmp
    if badPointees o tmp then .check false
    else (pointeesOutcome (check indirect) tmp).andThen (pointersOutcome check indirect tmp)

variable (c : AccessContext N)

/-- The outcome of a read, once the index expressions are read. -/
def readOutcome (v : Variable N) : Outcome N := .event (c.readable D Q o facts v) (.read v)

/-- The outcome of a write, once the index expressions are read. -/
def writeOutcome (v : Variable N) : Outcome N := .event (c.writable D Q o facts v) (.write v)

/-- What `write_pointed` comes to at a pointee. -/
def writeLevelOutcome (indirect : ℕ) (v : Variable N) : Outcome N :=
  if indirect = 0 then c.writeOutcome D Q o facts v else c.readOutcome D Q o facts v

/-- The outcome of `check_deref_volatile`. -/
def volatileOutcome (v : Variable N) (derefLevel : ℕ) : Outcome N :=
  let vol := (List.range derefLevel).any fun i => Q.isVolatileAfterDeref v (i + 1)
  if !o.strictVolatileRule then .check true
  else if !c.effectContext.sideEffectFree && vol then .check false
  else if vol then .event true .volatile
  else .check true

mutual

/-- The outcome of `read_indices`. -/
def indicesOutcome (c : AccessContext N) : List (Expression N) → Outcome N
  | [] => .check true
  | e :: indices => (factsOutcome c e).andThen (indicesOutcome c indices)

/-- The outcome of `visit_facts`. -/
def factsOutcome (c : AccessContext N) : Expression N → Outcome N
  | .constant => .check true
  | .variable v indices indirect =>
    if indirect < 0 then .check (!Q.isBitfield v)
    else
      let checked := (indicesOutcome c indices).andThen (c.readOutcome D Q o facts v)
      if indirect = 0 then checked
      else if indices.isEmpty && isValidPtr o facts v then
        checked.andThen (((indicesOutcome c indices).pointed (pointersOutcome o facts
          (fun _ => c.readOutcome D Q o facts) indirect.toNat [v])).andThen
            (c.volatileOutcome Q o v indirect.toNat))
      else .check false
  | .invocation true params => indicesOutcome c params
  | .invocation false params => paramsOutcome c c.effectContext params

/-- The outcome of the loop over the operands of an operation. -/
def paramsOutcome (c : AccessContext N) (running : Effect N) : List (Expression N) → Outcome N
  | [] => .check true
  | e :: params =>
    let r := (factsOutcome { c with effectContext := running } e).operand
    r.andThen (paramsOutcome c
      (running.addEffect D (({} : Effect N).recordAll D Q r.accum) false) params)

end

end AccessContext

/-- **An access** of the four kinds, with what it is to. The variable of the last two
is a pointer, dereferenced so many times. -/
inductive Access (N : Type)
  | checkReadVar (v : Variable N) (indices : List (Expression N))
  | checkWriteVar (v : Variable N) (indices : List (Expression N))
  | readPointed (v : Variable N) (indices : List (Expression N)) (indirect : ℕ)
  | writePointed (v : Variable N) (indices : List (Expression N)) (indirect : ℕ)

/-- The access is made. -/
def Access.run (c : AccessContext N) : Access N → EffectState N → Bool × EffectState N
  | checkReadVar v indices => c.checkReadVar D Q o facts v indices
  | checkWriteVar v indices => c.checkWriteVar D Q o facts v indices
  | readPointed v indices indirect => c.readPointed D Q o facts v indices indirect
  | writePointed v indices indirect => c.writePointed D Q o facts v indices indirect

/-- What it comes to. -/
def Access.outcome (c : AccessContext N) : Access N → Outcome N
  | checkReadVar v indices =>
    (c.indicesOutcome D Q o facts indices).andThen (c.readOutcome D Q o facts v)
  | checkWriteVar v indices =>
    (c.indicesOutcome D Q o facts indices).andThen (c.writeOutcome D Q o facts v)
  | readPointed v indices indirect =>
    (c.indicesOutcome D Q o facts indices).pointed (AccessContext.pointersOutcome o facts
      (fun _ => c.readOutcome D Q o facts) indirect [v])
  | writePointed v indices indirect =>
    (c.indicesOutcome D Q o facts indices).pointed (AccessContext.pointersOutcome o facts
      (c.writeLevelOutcome D Q o facts) indirect [v])

/-- The events make no difference to the effect: what is read or written is
recorded already, with what that says about purity and side effects. -/
def Effect.Knows (x : Effect N) (events : List (Event N)) : Prop :=
  ∀ e ∈ events, x.record D Q e = x

/-- What a function does to the effects is what the outcome says. -/
def Follows (g : EffectState N → Bool × EffectState N) (r : Outcome N) : Prop :=
  ∀ s, g s = (r.ok, s.leave D Q r)

variable {D Q o facts} {x : Effect N} {s : EffectState N} {r r' : Outcome N}
  {events more : List (Event N)}

/-! ## Events in an effect -/

theorem recordAll_append : x.recordAll D Q (events ++ more) =
    (x.recordAll D Q events).recordAll D Q more := List.foldl_append

/-- The variables that are read. -/
def reads (events : List (Event N)) : List (Variable N) :=
  events.filterMap fun e =>
    match e with
    | .read v => some v
    | _ => none

/-- The variables that are written. -/
def writes (events : List (Event N)) : List (Variable N) :=
  events.filterMap fun e =>
    match e with
    | .write v => some v
    | _ => none

/-- The event leaves an effect pure. -/
def Event.isPure (Q : AccessQualifiers N) : Event N → Bool
  | .read v => Q.isConst v && !Q.isVolatile v && !Q.isAccessOnce v
  | _ => true

/-- The event leaves an effect free of side effects. -/
def Event.isSideEffectFree (Q : AccessQualifiers N) : Event N → Bool
  | .read v => !Q.isVolatile v && !Q.isAccessOnce v
  | .write v => !Q.isVolatile v && !Q.isAccessOnce v
  | .volatile => false

omit [DecidableEq N] in
theorem reads_cons (e : Event N) : reads (e :: events) =
    match e with
    | .read v => v :: reads events
    | _ => reads events := by
  cases e <;> rfl

omit [DecidableEq N] in
theorem writes_cons (e : Event N) : writes (e :: events) =
    match e with
    | .write v => v :: writes events
    | _ => writes events := by
  cases e <;> rfl

theorem addVars_cons {up : Ty → Bool} {vars new : List (Variable N)} {v : Variable N} :
    addVars D up vars (v :: new) =
      addVars D up (if covered D up vars v then vars else vars ++ [v]) new := by
  rw [addVars]
  split <;> rfl

/-- **What events make of an effect**: the sets grow, the flags are lost. -/
theorem recordAll_eq : x.recordAll D Q events =
    ⟨addVars D isStruct x.readVars (reads events),
      addVars D (fun _ => true) x.writeVars (writes events), x.lhsWriteVars,
      x.pure && events.all (Event.isPure Q),
      x.sideEffectFree && events.all (Event.isSideEffectFree Q)⟩ := by
  induction events generalizing x with
  | nil => simp [Effect.recordAll, reads, writes, addVars]
  | cons e events ih =>
    have hcons : x.recordAll D Q (e :: events) = (x.record D Q e).recordAll D Q events := rfl
    rw [hcons, ih, reads_cons, writes_cons]
    cases e with
    | read v =>
      simp only [Effect.record, Effect.readVar, Effect.isRead, addVars_cons, List.all_cons,
        Event.isPure, Event.isSideEffectFree, Bool.and_assoc]
      rfl
    | write v =>
      simp only [Effect.record, Effect.writeVar, Effect.isWritten, addVars_cons, List.all_cons,
        Event.isPure, Event.isSideEffectFree, Bool.and_assoc, Bool.true_and]
      rfl
    | volatile =>
      simp only [Effect.record, List.all_cons, Event.isPure, Event.isSideEffectFree, Bool.true_and,
        Bool.false_and, Bool.and_false]

/-- A set is added to the same effect as its elements. -/
theorem addVars_addVars {up : Ty → Bool} {vars acc new : List (Variable N)} :
    addVars D up vars (addVars D up acc new) = addVars D up (addVars D up vars acc) new := by
  induction new generalizing acc with
  | nil => rfl
  | cons v new ih =>
    rw [addVars_cons, ih, addVars_cons]
    congr 1
    rw [covered_addVars]
    by_cases hacc : covered D up acc v = true
    · simp [hacc]
    · have happ : ∀ l, addVars D up l (acc ++ [v]) = addVars D up (addVars D up l acc) [v] := by
        intro l
        clear ih hacc
        induction acc generalizing l with
        | nil => rfl
        | cons w acc ih =>
          have hcons : addVars D up l (w :: acc) =
              addVars D up (if covered D up l w = true then l else l ++ [w]) acc := addVars_cons
          rw [List.cons_append, addVars_cons, ih, hcons]
      rw [Bool.not_eq_true] at hacc
      rw [hacc, if_neg (by simp), happ, addVars_cons, addVars, covered_addVars, hacc]

/-- **An operand's effect is added as what it reads and writes.** -/
theorem addEffect_recordAll {b : Bool} :
    x.addEffect D (({} : Effect N).recordAll D Q events) b = x.recordAll D Q events := by
  have hnil : ∀ {up : Ty → Bool} {vars : List (Variable N)}, addVars D up vars [] = vars := rfl
  rw [recordAll_eq, recordAll_eq]
  simp only [Effect.addEffect, addVars_addVars, hnil, Bool.true_and]
  have hlhs : addVariables x.lhsWriteVars [] = x.lhsWriteVars := rfl
  split
  · rw [hlhs]
  · rfl

/-- A set only grows. -/
theorem prefix_addVars {up : Ty → Bool} {vars new : List (Variable N)} :
    vars <+: addVars D up vars new := by
  induction new generalizing vars with
  | nil => exact List.prefix_rfl
  | cons v new ih =>
    rw [addVars_cons]
    split
    · exact ih
    · exact (List.prefix_append vars [v]).trans ih

/-- What is between an effect and the same effect is that effect. -/
theorem record_eq_of_recordAll_eq {e : Event N} (h : (x.record D Q e).recordAll D Q events = x) :
    x.record D Q e = x := by
  have hset : ∀ {up : Ty → Bool} {a b new : List (Variable N)}, a <+: b →
      addVars D up b new = a → b = a := by
    intro up a b new hab heq
    have hpre : b <+: addVars D up b new := prefix_addVars
    rw [heq] at hpre
    exact hpre.eq_of_length (Nat.le_antisymm hpre.length_le hab.length_le)
  have hflag : ∀ a b c : Bool, ((a && b) && c) = a → (a && b) = a := by decide
  have hone : x.record D Q e = x.recordAll D Q [e] := rfl
  rw [hone, recordAll_eq] at h ⊢
  rw [recordAll_eq] at h
  obtain ⟨readVars, writeVars, lhsWriteVars, pure, sideEffectFree⟩ := x
  simp only [Effect.mk.injEq] at h ⊢
  exact ⟨hset prefix_addVars h.1, hset prefix_addVars h.2.1, trivial, hflag _ _ _ h.2.2.2.1,
    hflag _ _ _ h.2.2.2.2⟩

/-- **Events leave an effect as it is just where it knows each of them.** -/
theorem recordAll_eq_self_iff : x.recordAll D Q events = x ↔ x.Knows D Q events := by
  induction events with
  | nil => exact ⟨fun _ e he => (nomatch he), fun _ => rfl⟩
  | cons e events ih =>
    have hcons : x.recordAll D Q (e :: events) = (x.record D Q e).recordAll D Q events := rfl
    rw [hcons]
    constructor
    · intro h
      have he := record_eq_of_recordAll_eq h
      rw [he] at h
      exact List.forall_mem_cons.mpr ⟨he, ih.mp h⟩
    · intro h
      rw [h e List.mem_cons_self]
      exact ih.mpr fun e' he' => h e' (List.mem_cons_of_mem _ he')

/-! ## Outcomes -/

theorem leave_check {ok : Bool} : s.leave D Q (.check ok) = s := by
  obtain ⟨accum, stm⟩ := s
  cases accum <;> rfl

theorem follows_check {ok : Bool} : Follows D Q (fun s => (ok, s)) (.check ok) := by
  intro s
  rw [leave_check]
  rfl

theorem leave_leave (ok : Bool) : (s.leave D Q r).leave D Q r' =
    s.leave D Q ⟨ok, r.accum ++ r'.accum, r.stm ++ r'.stm⟩ := by
  obtain ⟨accum, stm⟩ := s
  cases accum <;> simp [EffectState.leave, recordAll_append]

/-- One function after the other, where the first does not reject. -/
theorem Follows.andThen {g g' : EffectState N → Bool × EffectState N} (hg : Follows D Q g r)
    (hg' : Follows D Q g' r') :
    Follows D Q (fun s =>
      match g s with
      | (true, s) => g' s
      | (false, s) => (false, s)) (r.andThen r') := by
  intro s
  unfold Outcome.andThen
  dsimp only
  rw [hg s]
  cases hok : r.ok with
  | false => simp [hok]
  | true =>
    dsimp only
    rw [hg', leave_leave r'.ok, if_pos rfl]

theorem follows_event {ok : Bool} {e : Event N} :
    Follows D Q (fun s => if ok then (true, s.both fun x => x.record D Q e) else (false, s))
      (.event ok e) := by
  intro s
  unfold Outcome.event
  cases ok with
  | false => exact follows_check s
  | true => rfl

variable (c : AccessContext N)

theorem follows_checkRead (v : Variable N) :
    Follows D Q (c.checkRead D Q o facts v) (c.readOutcome D Q o facts v) := by
  have h : Follows D Q (fun s => if c.readable D Q o facts v then
      (true, s.both fun x => x.record D Q (.read v)) else (false, s))
      (.event (c.readable D Q o facts v) (.read v)) := follows_event
  exact h

theorem follows_checkWrite (v : Variable N) :
    Follows D Q (c.checkWrite D Q o facts v) (c.writeOutcome D Q o facts v) := by
  have h : Follows D Q (fun s => if c.writable D Q o facts v then
      (true, s.both fun x => x.record D Q (.write v)) else (false, s))
      (.event (c.writable D Q o facts v) (.write v)) := follows_event
  exact h

theorem follows_checkDerefVolatile (v : Variable N) (derefLevel : ℕ) :
    Follows D Q (c.checkDerefVolatile Q o v derefLevel) (c.volatileOutcome Q o v derefLevel) := by
  intro s
  unfold AccessContext.checkDerefVolatile AccessContext.volatileOutcome
  dsimp only
  split
  · exact follows_check s
  · split
    · exact follows_check s
    · split
      · rfl
      · exact follows_check s

/-- The loop over the pointees of a level. -/
theorem follows_checkPointees {check : Variable N → EffectState N → Bool × EffectState N}
    {out : Variable N → Outcome N} (h : ∀ v, Follows D Q (check v) (out v))
    (tmp : List (Variable N)) :
    Follows D Q (AccessContext.checkPointees check tmp)
      (AccessContext.pointeesOutcome out tmp) := by
  induction tmp with
  | nil => exact follows_check
  | cons pointee rest ih =>
    intro s
    unfold AccessContext.checkPointees AccessContext.pointeesOutcome
    split
    · exact ih s
    · exact (h pointee).andThen ih s

/-- The loop over the levels of a dereference. -/
theorem follows_followPointers {check : ℕ → Variable N → EffectState N → Bool × EffectState N}
    {out : ℕ → Variable N → Outcome N} (h : ∀ n v, Follows D Q (check n v) (out n v))
    (indirect : ℕ) (tmp : List (Variable N)) :
    Follows D Q (AccessContext.followPointers o facts check indirect tmp)
      (AccessContext.pointersOutcome o facts out indirect tmp) := by
  induction indirect generalizing tmp with
  | zero => exact follows_check
  | succ indirect ih =>
    intro s
    unfold AccessContext.followPointers AccessContext.pointersOutcome
    dsimp only
    split
    · exact follows_check s
    · exact (follows_checkPointees (h indirect) _).andThen (ih _) s

/-- What is taken back is what was recorded. -/
theorem restore_leave : (s.leave D Q r).restore s = s.leave D Q ⟨false, [], r.stm⟩ := by
  obtain ⟨accum, stm⟩ := s
  cases accum with
  | none => rfl
  | some x =>
    simp only [EffectState.leave, EffectState.restore, Effect.assign, Option.map_some]
    rw [recordAll_eq]
    rfl

/-- A dereference behind its index expressions. -/
theorem follows_pointed {check : ℕ → Variable N → EffectState N → Bool × EffectState N}
    {out : ℕ → Variable N → Outcome N} (h : ∀ n v, Follows D Q (check n v) (out n v))
    {g : EffectState N → Bool × EffectState N} (hg : Follows D Q g r) (v : Variable N)
    (indirect : ℕ) :
    Follows D Q (fun s => AccessContext.pointed o facts check v indirect s (g s))
      (r.pointed (AccessContext.pointersOutcome o facts out indirect [v])) := by
  intro s
  dsimp only
  rw [hg s]
  unfold AccessContext.pointed Outcome.pointed
  cases hok : r.ok with
  | false => simp [hok]
  | true =>
    dsimp only
    rw [follows_followPointers h indirect [v], if_pos rfl]
    cases hok' : (AccessContext.pointersOutcome o facts out indirect [v]).ok with
    | false =>
      dsimp only
      rw [leave_leave false, restore_leave]
      rfl
    | true =>
      dsimp only
      rw [leave_leave true, if_pos rfl]

mutual

/-- **The index expressions of an access.** -/
theorem follows_readIndices (c : AccessContext N) : ∀ indices : List (Expression N),
    Follows D Q (c.readIndices D Q o facts indices) (c.indicesOutcome D Q o facts indices)
  | [] => follows_check
  | e :: indices => by
    intro s
    rw [AccessContext.readIndices, AccessContext.indicesOutcome]
    exact (follows_visitFacts c e).andThen (follows_readIndices c indices) s

/-- **An index expression.** -/
theorem follows_visitFacts (c : AccessContext N) : ∀ e : Expression N,
    Follows D Q (c.visitFacts D Q o facts e) (c.factsOutcome D Q o facts e)
  | .constant => follows_check
  | .variable v indices indirect => by
    intro s
    rw [AccessContext.visitFacts, AccessContext.factsOutcome]
    have hindices := follows_readIndices c indices
    have hread : Follows D Q (c.checkRead D Q o facts v) (c.readOutcome D Q o facts v) :=
      follows_checkRead c v
    have hchecked := hindices.andThen hread
    split
    · exact follows_check s
    · dsimp only
      split
      · exact hchecked s
      · split
        · exact hchecked.andThen ((follows_pointed (fun _ v => follows_checkRead c v) hindices v
            indirect.toNat).andThen (follows_checkDerefVolatile c v indirect.toNat)) s
        · exact follows_check s
  | .invocation true params => by
    intro s
    rw [AccessContext.visitFacts, AccessContext.factsOutcome]
    exact follows_readIndices c params s
  | .invocation false params => by
    intro s
    rw [AccessContext.visitFacts, AccessContext.factsOutcome]
    exact follows_visitParams c c.effectContext params s

/-- **The operands of an operation.** -/
theorem follows_visitParams (c : AccessContext N) (running : Effect N) :
    ∀ params : List (Expression N), Follows D Q (c.visitParams D Q o facts running params)
      (c.paramsOutcome D Q o facts running params)
  | [] => follows_check
  | e :: params => by
    intro s
    have he := follows_visitFacts { c with effectContext := running } e
    rw [AccessContext.visitParams, AccessContext.paramsOutcome, he ⟨some {}, {}⟩]
    unfold Outcome.operand Outcome.andThen
    cases hok : (AccessContext.factsOutcome D Q o facts { c with effectContext := running } e).ok
      with
    | false => exact follows_check s
    | true =>
      simp only [EffectState.leave, Option.map_some, Option.getD_some]
      rw [follows_visitParams c _ params]
      simp only [if_true, EffectState.mergeParamContext, EffectState.leave, addEffect_recordAll,
        recordAll_append, Option.map_map]
      rfl

end

/-- **What an access does to the effects.** -/
theorem follows_run (a : Access N) :
    Follows D Q (a.run D Q o facts c) (a.outcome D Q o facts c) := by
  cases a with
  | checkReadVar v indices =>
    exact (follows_readIndices c indices).andThen (follows_checkRead c v)
  | checkWriteVar v indices =>
    exact (follows_readIndices c indices).andThen (follows_checkWrite c v)
  | readPointed v indices indirect =>
    exact follows_pointed (fun _ v => follows_checkRead c v) (follows_readIndices c indices) v
      indirect
  | writePointed v indices indirect =>
    refine follows_pointed (fun n v => ?_) (follows_readIndices c indices) v indirect
    unfold AccessContext.writeCheck AccessContext.writeLevelOutcome
    split
    · exact follows_checkWrite c v
    · exact follows_checkRead c v

/-! ## The exits that reject -/

section Exits

omit [DecidableEq N] in
theorem Outcome.andThen_of_ok (h : r.ok = true) :
    r.andThen r' = ⟨r'.ok, r.accum ++ r'.accum, r.stm ++ r'.stm⟩ := if_pos h

omit [DecidableEq N] in
theorem Outcome.andThen_of_failed (h : r.ok = false) : r.andThen r' = r := by
  unfold Outcome.andThen
  rw [h]
  rfl

omit [DecidableEq N] in
/-- The last check of an access leaves what is recorded before it where it rejects. -/
theorem Outcome.andThen_event_failed {ok : Bool} {e : Event N}
    (h : (r.andThen (.event ok e)).ok = false) :
    r.andThen (.event ok e) = ⟨false, r.accum, r.stm⟩ := by
  cases hr : r.ok with
  | false =>
    rw [andThen_of_failed hr, ← hr]
  | true =>
    rw [andThen_of_ok hr] at h ⊢
    cases ok with
    | true => cases h
    | false => simp [Outcome.event]

/-- **`check_read_var` rejects** with the index expressions recorded, and nothing else:
up to the one that is rejected, or all where the variable itself is. -/
theorem checkReadVar_failed {v : Variable N} {indices : List (Expression N)}
    (h : ((Access.checkReadVar v indices).outcome D Q o facts c).ok = false) :
    (Access.checkReadVar v indices).outcome D Q o facts c =
      ⟨false, (c.indicesOutcome D Q o facts indices).accum,
        (c.indicesOutcome D Q o facts indices).stm⟩ :=
  Outcome.andThen_event_failed h

/-- **`check_write_var` rejects** with the index expressions recorded. -/
theorem checkWriteVar_failed {v : Variable N} {indices : List (Expression N)}
    (h : ((Access.checkWriteVar v indices).outcome D Q o facts c).ok = false) :
    (Access.checkWriteVar v indices).outcome D Q o facts c =
      ⟨false, (c.indicesOutcome D Q o facts indices).accum,
        (c.indicesOutcome D Q o facts indices).stm⟩ :=
  Outcome.andThen_event_failed h

/-- A variable without index expressions leaves no trace where it is rejected. -/
theorem checkReadVar_untouched {v : Variable N}
    (h : ((Access.checkReadVar v []).run D Q o facts c s).1 = false) :
    ((Access.checkReadVar v []).run D Q o facts c s).2 = s := by
  rw [follows_run c (.checkReadVar v []) s] at h ⊢
  rw [checkReadVar_failed c h]
  exact leave_check

theorem checkWriteVar_untouched {v : Variable N}
    (h : ((Access.checkWriteVar v []).run D Q o facts c s).1 = false) :
    ((Access.checkWriteVar v []).run D Q o facts c s).2 = s := by
  rw [follows_run c (.checkWriteVar v []) s] at h ⊢
  rw [checkWriteVar_failed c h]
  exact leave_check

/-- **Where an index expression is rejected** those before it are recorded, and of it
what it records itself. -/
theorem indicesOutcome_failed {indices : List (Expression N)}
    (h : (c.indicesOutcome D Q o facts indices).ok = false) :
    ∃ pre e post, indices = pre ++ e :: post ∧
      (∀ e' ∈ pre, (c.factsOutcome D Q o facts e').ok = true) ∧
      (c.factsOutcome D Q o facts e).ok = false ∧
      c.indicesOutcome D Q o facts indices =
        ⟨false,
          (pre.flatMap fun e' => (c.factsOutcome D Q o facts e').accum) ++
            (c.factsOutcome D Q o facts e).accum,
          (pre.flatMap fun e' => (c.factsOutcome D Q o facts e').stm) ++
            (c.factsOutcome D Q o facts e).stm⟩ := by
  induction indices with
  | nil => cases h
  | cons e indices ih =>
    rw [AccessContext.indicesOutcome] at h ⊢
    cases he : (c.factsOutcome D Q o facts e).ok with
    | false =>
      refine ⟨[], e, indices, rfl, List.forall_mem_nil _, he, ?_⟩
      rw [Outcome.andThen_of_failed he, ← he]
      rfl
    | true =>
      rw [Outcome.andThen_of_ok he] at h ⊢
      obtain ⟨pre, e', post, rfl, hpre, he', heq⟩ := ih h
      refine ⟨e :: pre, e', post, rfl, List.forall_mem_cons.mpr ⟨he, hpre⟩, he', ?_⟩
      rw [heq]
      simp only [List.flatMap_cons, List.append_assoc]

omit [DecidableEq N] in
/-- **`read_pointed` and `write_pointed` reject** before the dereference with all that
the index expressions have recorded, and in it with the effect of the context as it
was, but that of the statement not. -/
theorem Outcome.pointed_failed (h : (r.pointed r').ok = false) :
    r.ok = false ∧ r.pointed r' = r ∨
      r.ok = true ∧ r'.ok = false ∧ r.pointed r' = ⟨false, [], r.stm ++ r'.stm⟩ := by
  unfold Outcome.pointed at h ⊢
  cases hr : r.ok with
  | false => exact .inl ⟨rfl, by simp⟩
  | true =>
    rw [hr] at h
    cases hr' : r'.ok with
    | false => exact .inr ⟨rfl, rfl, by simp⟩
    | true =>
      rw [hr'] at h
      cases h

/-- The pointees of a level that are looked at, with what is recorded at each. -/
def passed (e : Variable N → Event N) (pointees : List (Variable N)) : List (Event N) :=
  (pointees.filter fun p => !p.isSpecialPtr).map e

variable {ok : ℕ → Variable N → Bool} {e : ℕ → Variable N → Event N}

omit [DecidableEq N] in
/-- A level that is not rejected has recorded its pointees, -/
theorem pointeesOutcome_ok {ok : Variable N → Bool} {e : Variable N → Event N}
    {tmp : List (Variable N)}
    (h : (AccessContext.pointeesOutcome (fun p => .event (ok p) (e p)) tmp).ok = true) :
    AccessContext.pointeesOutcome (fun p => .event (ok p) (e p)) tmp =
      ⟨true, passed e tmp, passed e tmp⟩ := by
  induction tmp with
  | nil => rfl
  | cons p tmp ih =>
    unfold AccessContext.pointeesOutcome at h ⊢
    cases hspecial : p.isSpecialPtr with
    | true =>
      simp only [hspecial, if_true] at h ⊢
      rw [ih h]
      simp [passed, hspecial]
    | false =>
      simp only [hspecial, Bool.false_eq_true, if_false] at h ⊢
      cases hok : ok p with
      | false =>
        rw [hok] at h
        cases h
      | true =>
        rw [hok] at h
        have hevent : (Outcome.event true (e p) : Outcome N) = ⟨true, [e p], [e p]⟩ := rfl
        rw [hevent, Outcome.andThen_of_ok rfl] at h ⊢
        rw [ih h]
        simp [passed, hspecial]

omit [DecidableEq N] in
/-- and one that is has recorded those before the one that is rejected. -/
theorem pointeesOutcome_failed {ok : Variable N → Bool} {e : Variable N → Event N}
    {tmp : List (Variable N)}
    (h : (AccessContext.pointeesOutcome (fun p => .event (ok p) (e p)) tmp).ok = false) :
    ∃ pre p post, tmp = pre ++ p :: post ∧ p.isSpecialPtr = false ∧ ok p = false ∧
      AccessContext.pointeesOutcome (fun p => .event (ok p) (e p)) tmp =
        ⟨false, passed e pre, passed e pre⟩ := by
  induction tmp with
  | nil => cases h
  | cons p tmp ih =>
    unfold AccessContext.pointeesOutcome at h ⊢
    cases hspecial : p.isSpecialPtr with
    | true =>
      simp only [hspecial, if_true] at h ⊢
      obtain ⟨pre, q, post, rfl, hq, hok, heq⟩ := ih h
      exact ⟨p :: pre, q, post, rfl, hq, hok, by rw [heq]; simp [passed, hspecial]⟩
    | false =>
      simp only [hspecial, Bool.false_eq_true, if_false] at h ⊢
      cases hok : ok p with
      | false => exact ⟨[], p, tmp, rfl, hspecial, hok, rfl⟩
      | true =>
        rw [hok] at h
        have hevent : (Outcome.event true (e p) : Outcome N) = ⟨true, [e p], [e p]⟩ := rfl
        rw [hevent, Outcome.andThen_of_ok rfl] at h ⊢
        obtain ⟨pre, q, post, rfl, hq, hok', heq⟩ := ih h
        refine ⟨p :: pre, q, post, rfl, hq, hok', ?_⟩
        rw [heq]
        simp [passed, hspecial]

/-- The variables a dereference of `tmp` comes to, level after level. -/
def pointeesAt (facts : FactVec (Variable N)) (tmp : List (Variable N)) : ℕ → List (Variable N)
  | 0 => mergePointeesOfPointers facts [] tmp
  | k + 1 => pointeesAt facts (mergePointeesOfPointers facts [] tmp) k

/-- **Where a dereference is rejected**, at the level `k`, the levels before it are
recorded, and of its pointees those before the one that is rejected; none where the
facts of the level do not allow it. -/
theorem pointersOutcome_failed {indirect : ℕ} {tmp : List (Variable N)}
    (h : (AccessContext.pointersOutcome o facts (fun n p => .event (ok n p) (e n p)) indirect
      tmp).ok = false) :
    ∃ k < indirect, ∃ pre post, pointeesAt facts tmp k = pre ++ post ∧
      (AccessContext.badPointees o (pointeesAt facts tmp k) = true ∧ pre = [] ∨
        ∃ p rest, post = p :: rest ∧ p.isSpecialPtr = false ∧
          ok (indirect - 1 - k) p = false) ∧
      (AccessContext.pointersOutcome o facts (fun n p => .event (ok n p) (e n p)) indirect
        tmp).stm =
        ((List.range k).flatMap fun j => passed (e (indirect - 1 - j)) (pointeesAt facts tmp j)) ++
          passed (e (indirect - 1 - k)) pre := by
  induction indirect generalizing tmp with
  | zero => cases h
  | succ indirect ih =>
    unfold AccessContext.pointersOutcome at h ⊢
    dsimp only at h ⊢
    cases hbad : AccessContext.badPointees o (mergePointeesOfPointers facts [] tmp) with
    | true =>
      refine ⟨0, Nat.succ_pos _, [], _, rfl, .inl ⟨hbad, rfl⟩, ?_⟩
      simp [passed, Outcome.check]
    | false =>
      simp only [hbad, Bool.false_eq_true, if_false] at h ⊢
      generalize hlevel : AccessContext.pointeesOutcome (fun p => .event (ok indirect p)
        (e indirect p)) (mergePointeesOfPointers facts [] tmp) = level at h ⊢
      cases hok : level.ok with
      | false =>
        rw [← hlevel] at hok
        obtain ⟨pre, p, post, hsplit, hp, hrejected, heq⟩ := pointeesOutcome_failed hok
        refine ⟨0, Nat.succ_pos _, pre, p :: post, hsplit, .inr ⟨p, post, rfl, hp, ?_⟩, ?_⟩
        · simpa using hrejected
        · rw [← hlevel, Outcome.andThen_of_failed hok, heq]
          simp
      | true =>
        rw [Outcome.andThen_of_ok hok] at h ⊢
        -- the whole level is recorded, and the one that is rejected comes later
        have hall := pointeesOutcome_ok (hlevel ▸ hok)
        rw [hlevel] at hall
        obtain ⟨k, hk, pre, post, hsplit, hexit, heq⟩ := ih h
        have hsub : ∀ j, indirect - 1 - j = indirect - (j + 1) := fun j => by omega
        refine ⟨k + 1, Nat.succ_lt_succ hk, pre, post, hsplit, ?_, ?_⟩
        · rwa [Nat.add_sub_cancel, ← hsub]
        · rw [hall, heq, List.range_succ_eq_map, List.flatMap_cons, List.flatMap_map,
            List.append_assoc]
          simp only [Nat.succ_eq_add_one, Nat.add_sub_cancel, hsub, pointeesAt, Nat.sub_zero]

/-- **A dereference behind its index expressions is rejected** at one of these, or at
a level, where the effect of the statement has what the levels before recorded. -/
theorem pointed_pointers_failed {indirect : ℕ} {tmp : List (Variable N)}
    (h : (r.pointed (AccessContext.pointersOutcome o facts (fun n p => .event (ok n p) (e n p))
      indirect tmp)).ok = false) :
    r.ok = false ∧ r.pointed (AccessContext.pointersOutcome o facts
        (fun n p => .event (ok n p) (e n p)) indirect tmp) = r ∨
      r.ok = true ∧ ∃ k < indirect, ∃ pre post, pointeesAt facts tmp k = pre ++ post ∧
        (AccessContext.badPointees o (pointeesAt facts tmp k) = true ∧ pre = [] ∨
          ∃ p rest, post = p :: rest ∧ p.isSpecialPtr = false ∧
            ok (indirect - 1 - k) p = false) ∧
        r.pointed (AccessContext.pointersOutcome o facts
            (fun n p => .event (ok n p) (e n p)) indirect tmp) =
          ⟨false, [], r.stm ++
            (((List.range k).flatMap fun j =>
              passed (e (indirect - 1 - j)) (pointeesAt facts tmp j)) ++
                passed (e (indirect - 1 - k)) pre)⟩ := by
  rcases Outcome.pointed_failed h with hr | ⟨hr, hlevels, heq⟩
  · exact .inl hr
  · obtain ⟨k, hk, pre, post, hsplit, hexit, hstm⟩ := pointersOutcome_failed hlevels
    exact .inr ⟨hr, k, hk, pre, post, hsplit, hexit, by rw [heq, hstm]⟩

/-- **`read_pointed` rejects** at a level with the pointees read that come before. -/
theorem readPointed_failed {v : Variable N} {indices : List (Expression N)} {indirect : ℕ}
    (h : ((Access.readPointed v indices indirect).outcome D Q o facts c).ok = false) :
    (c.indicesOutcome D Q o facts indices).ok = false ∧
        (Access.readPointed v indices indirect).outcome D Q o facts c =
          c.indicesOutcome D Q o facts indices ∨
      (c.indicesOutcome D Q o facts indices).ok = true ∧ ∃ k < indirect, ∃ pre post,
        pointeesAt facts [v] k = pre ++ post ∧
        (AccessContext.badPointees o (pointeesAt facts [v] k) = true ∧ pre = [] ∨
          ∃ p rest, post = p :: rest ∧ p.isSpecialPtr = false ∧
            c.readable D Q o facts p = false) ∧
        (Access.readPointed v indices indirect).outcome D Q o facts c =
          ⟨false, [], (c.indicesOutcome D Q o facts indices).stm ++
            (((List.range k).flatMap fun j => passed .read (pointeesAt facts [v] j)) ++
              passed .read pre)⟩ :=
  pointed_pointers_failed h

/-- What `write_pointed` records at a pointee: the last level is written. -/
def writeEvent (indirect : ℕ) (v : Variable N) : Event N :=
  if indirect = 0 then .write v else .read v

/-- **`write_pointed` rejects** likewise; at the last level pointees are written. -/
theorem writePointed_failed {v : Variable N} {indices : List (Expression N)} {indirect : ℕ}
    (h : ((Access.writePointed v indices indirect).outcome D Q o facts c).ok = false) :
    (c.indicesOutcome D Q o facts indices).ok = false ∧
        (Access.writePointed v indices indirect).outcome D Q o facts c =
          c.indicesOutcome D Q o facts indices ∨
      (c.indicesOutcome D Q o facts indices).ok = true ∧ ∃ k < indirect, ∃ pre post,
        pointeesAt facts [v] k = pre ++ post ∧
        (AccessContext.badPointees o (pointeesAt facts [v] k) = true ∧ pre = [] ∨
          ∃ p rest, post = p :: rest ∧ p.isSpecialPtr = false ∧
            (if indirect - 1 - k = 0 then c.writable D Q o facts p
              else c.readable D Q o facts p) = false) ∧
        (Access.writePointed v indices indirect).outcome D Q o facts c =
          ⟨false, [], (c.indicesOutcome D Q o facts indices).stm ++
            (((List.range k).flatMap fun j =>
              passed (writeEvent (indirect - 1 - j)) (pointeesAt facts [v] j)) ++
                passed (writeEvent (indirect - 1 - k)) pre)⟩ := by
  have hlevel : c.writeLevelOutcome D Q o facts = fun n p =>
      .event (if n = 0 then c.writable D Q o facts p else c.readable D Q o facts p)
        (writeEvent n p) := by
    funext n p
    unfold AccessContext.writeLevelOutcome AccessContext.writeOutcome AccessContext.readOutcome
      writeEvent
    split <;> rfl
  unfold Access.outcome at h ⊢
  rw [hlevel] at h ⊢
  exact pointed_pointers_failed h

end Exits

theorem leave_eq_self_iff : s.leave D Q r = s ↔
    (∀ x ∈ s.effectAccum, x.Knows D Q r.accum) ∧ s.effectStm.Knows D Q r.stm := by
  obtain ⟨accum, stm⟩ := s
  simp only [EffectState.leave, EffectState.mk.injEq, recordAll_eq_self_iff]
  cases accum with
  | none => simp
  | some x => simp [recordAll_eq_self_iff]

/-- **A rejected access leaves no trace just where what it records before it is
rejected makes no difference**: the index expressions, and the pointees of a
dereference up to the one that is rejected. These are taken back from the effect
of the context, with the index expressions; from that of the statement nothing
is. -/
theorem untouched_iff (D : N → Decl) (Q : AccessQualifiers N) (o : DereferenceOptions)
    (facts : FactVec (Variable N)) (c : AccessContext N) (a : Access N) (s : EffectState N) :
    ((a.run D Q o facts c s).1 = false → (a.run D Q o facts c s).2 = s) ↔
      (a.outcome D Q o facts c).ok = true ∨
        (∀ x ∈ s.effectAccum, x.Knows D Q (a.outcome D Q o facts c).accum) ∧
          s.effectStm.Knows D Q (a.outcome D Q o facts c).stm := by
  rw [follows_run c a s, ← leave_eq_self_iff]
  cases (a.outcome D Q o facts c).ok <;> simp

end

/-- An array, its index and a pointer. -/
def arrayIndexPointer : Fin 4 → Decl
  | 0 => ⟨.simple 4, true⟩
  | 3 => ⟨.pointer (.simple 4), false⟩
  | _ => ⟨.simple 4, false⟩

/-- Nothing is const or volatile. -/
def plain : AccessQualifiers (Fin 4) :=
  { isConst := fun _ => false
    isVolatile := fun _ => false
    isAccessOnce := fun _ => false
    isVolatileAfterDeref := fun _ _ => false
    isBitfield := fun _ => false }

/-- The array may not be read, nor the variable the pointer may also point to. -/
def noRead : AccessContext (Fin 4) :=
  { rwDirective := some ⟨[.named 0 [], .named 2 []], []⟩ }

/-- A read of an array element that is rejected leaves the read of the index in
both effects; a dereference that is rejected at the second pointee leaves the
read of the first in the effect of the statement. -/
theorem rejected_touches :
    (Access.run arrayIndexPointer plain {} [] noRead
      (.checkReadVar (.named 0 []) [.variable (.named 1 []) [] 0]) ⟨some {}, {}⟩ =
        (false, ⟨some { readVars := [.named 1 []], pure := false },
          { readVars := [.named 1 []], pure := false }⟩)) ∧
    (Access.run arrayIndexPointer plain {} [.pointTo (.named 3 []) [.named 1 [], .named 2 []]]
      noRead
      (.readPointed (.named 3 []) [] 1) ⟨some {}, {}⟩ =
        (false, ⟨some {}, { readVars := [.named 1 []], pure := false }⟩)) := by
  exact ⟨rfl, rfl⟩

end Effects

end CLSmith
