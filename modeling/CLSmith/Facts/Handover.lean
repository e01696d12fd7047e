import CLSmith.Facts.Match
import CLSmith.Common.Closure
/-!
# Facts handed over to a callee

`FactMgr::caller_to_callee_handover`: the callee gets the facts of globals and
of its parameters, and of whatever the pointers among these can reach. The
variables of facts may be array elements here, which `get_collective` takes to
the variables of the declarations.
-/

namespace CLSmith

namespace Facts

open Common

namespace Handover

variable {N V E : Type} [DecidableEq N] (D : N → Decl) (collective : V → Variable N)

/-- `loose_match`. -/
def looseMatch (v w : V) : Bool := (collective v).looseMatch D (collective w)

/-- `FactPointTo::point_to`. -/
def pointTo (pointToVars : List V) (v : V) : Bool :=
  pointToVars.any fun x => looseMatch D collective v x || looseMatch D collective x v

/-- A points-to fact points to the variable of the other fact. -/
def relates (g f : Fact V) : Bool :=
  match g with
  | .pointTo _ pointToVars => pointTo D collective pointToVars f.getVar
  | .unionWrite _ _ => false

/-- `add_param_facts`, by what an assignment of an argument to a parameter does
to the facts; there are as many arguments as parameters. -/
def addParamFacts (update : V → E → FactVec V → FactVec V) (param : List V) (paramValue : List E)
    (facts : FactVec V) : FactVec V :=
  (param.zip paramValue).foldl (fun facts p => update p.1 p.2 facts) facts

/-- The facts that are kept in any case: of globals, and of the parameters and
their fields. -/
def kept (isGlobal : V → Bool) (fits : V → V → Bool) (param : List V) (f : Fact V) : Bool :=
  isGlobal f.getVar || param.any fun p => fits p f.getVar

/-- **`caller_to_callee_handover`**; `fits` is `match`. Facts about globals and
parameters are kept at once, and then those that what is kept points to, until none is
left that is. -/
def callerToCalleeHandover (isGlobal : V → Bool) (fits : V → V → Bool)
    (update : V → E → FactVec V → FactVec V) (param : List V) (paramValue : List E)
    (inputs : FactVec V) : Option (FactVec V) :=
  let inputs := addParamFacts update param paramValue inputs
  let keepFacts := inputs.filter (kept isGlobal fits param)
  let inputs := inputs.filter fun f => !kept isGlobal fits param f
  Closure.grow (relates D collective) (inputs.length + 1) keepFacts inputs

/-- **What a callee needs**: the least set of facts of the environment with all
that are about globals and parameters and, with a points-to fact, those about
what it points to, or about a variable that matches that loosely. -/
inductive Needed (isGlobal : V → Bool) (fits : V → V → Bool) (param : List V)
    (env : FactVec V) : Fact V → Prop
  | kept {f : Fact V} (hf : f ∈ env)
      (h : isGlobal f.getVar = true ∨ ∃ p ∈ param, fits p f.getVar = true) :
      Needed isGlobal fits param env f
  | pointed {p w : V} {pointToVars : List V} {f : Fact V}
      (hg : Needed isGlobal fits param env (.pointTo p pointToVars)) (hf : f ∈ env)
      (hw : w ∈ pointToVars)
      (h : looseMatch D collective f.getVar w = true ∨ looseMatch D collective w f.getVar = true) :
      Needed isGlobal fits param env f

variable {D collective} {isGlobal : V → Bool} {fits : V → V → Bool} {param : List V}
  {env : FactVec V} {f : Fact V}

theorem kept_iff : kept isGlobal fits param f = true ↔
    isGlobal f.getVar = true ∨ ∃ p ∈ param, fits p f.getVar = true := by
  unfold kept
  rw [Bool.or_eq_true, List.any_eq_true]

/-- What the passes reach is what is needed. -/
theorem reach_iff_needed :
    Closure.Reach (relates D collective) (fun f => kept isGlobal fits param f = true) env f ↔
      Needed D collective isGlobal fits param env f := by
  constructor
  · intro h
    induction h with
    | start hf hk => exact .kept hf (kept_iff.mp hk)
    | @step g f _ hf hrel ih =>
      cases g with
      | pointTo p pointToVars =>
        obtain ⟨w, hw, hmatch⟩ := List.any_eq_true.mp hrel
        exact .pointed ih hf hw (Bool.or_eq_true_iff.mp hmatch)
      | unionWrite u fid => cases hrel
  · intro h
    induction h with
    | kept hf hk => exact .start hf (kept_iff.mpr hk)
    | pointed _ hf hw hmatch ih =>
      refine .step ih hf (List.any_eq_true.mpr ⟨_, hw, ?_⟩)
      exact Bool.or_eq_true_iff.mpr hmatch

/-- **Exactly what is needed is handed over.** The loops end; every fact after
the parameter assignments is either handed over or dropped, as often as it is
there, and it is handed over just where it is needed. -/
theorem callerToCalleeHandover_spec (D : N → Decl) (collective : V → Variable N)
    (isGlobal : V → Bool) (fits : V → V → Bool) (update : V → E → FactVec V → FactVec V)
    (param : List V) (paramValue : List E) (inputs : FactVec V) :
    ∃ result dropped,
      callerToCalleeHandover D collective isGlobal fits update param paramValue inputs =
        some result ∧
      (result ++ dropped).Perm (addParamFacts update param paramValue inputs) ∧
      (∀ f ∈ result, Needed D collective isGlobal fits param
        (addParamFacts update param paramValue inputs) f) ∧
      ∀ f ∈ dropped, ¬ Needed D collective isGlobal fits param
        (addParamFacts update param paramValue inputs) f := by
  generalize henv : addParamFacts update param paramValue inputs = env
  have hperm : (env.filter (kept isGlobal fits param) ++
      env.filter fun f => !kept isGlobal fits param f).Perm env := List.filter_append_perm _ env
  have hstart : ∀ f ∈ env.filter (kept isGlobal fits param),
      Closure.Reach (relates D collective) (fun f => kept isGlobal fits param f = true) env f :=
    fun f hf => .start (List.mem_filter.mp hf).1 (List.mem_filter.mp hf).2
  obtain ⟨result, dropped, hgrow, hall, hresult, hdropped⟩ := Closure.grow_spec hperm hstart
    (fun f hf hk => by simpa [hk] using (List.mem_filter.mp hf).2) (Nat.lt_succ_self _)
  refine ⟨result, dropped, ?_, hall, fun f hf => reach_iff_needed.mp (hresult f hf),
    fun f hf h => hdropped f hf (reach_iff_needed.mpr h)⟩
  unfold callerToCalleeHandover
  rw [henv]
  exact hgrow

/-- The handover where the arguments are the expressions of assignments. -/
def handover (D : N → Decl) (isGlobal : N → Bool) (param : List (Variable N))
    (paramValue : List (Expr N))
    (inputs : FactVec (Variable N)) : Option (FactVec (Variable N)) :=
  callerToCalleeHandover D id
    (fun v => match v with
      | .named n _ => isGlobal n
      | _ => false)
    (Variable.matches D) (fun p => updateFactForAssign D ⟨p, p.type D⟩) param paramValue inputs

/-- A pointer to a pointer of the caller is passed: with its fact goes that of
the pointer, and the fact of a local that is not reached stays behind. -/
example :
    handover
      (fun n : ℕ =>
        ⟨if n = 0 then .pointer (.pointer (.simple 4)) else .pointer (.simple 4), false⟩)
      (fun _ => false) [.named 0 []] [.var (.named 1 []) (.pointer (.pointer (.simple 4)))]
      [.pointTo (.named 2 []) [.null], .pointTo (.named 1 []) [.null]] =
      some [.pointTo (.named 0 []) [.named 1 []], .pointTo (.named 1 []) [.null]] := by
  decide

end Handover

end Facts

end CLSmith
