import Mathlib.Logic.Relation
import Mathlib.Data.Set.Lattice
/-!
# A small imperative language

Statements over arrays of integers, run one statement at a time off a list
of what is left to do. A `mark` stands for whatever a program built on the
language does there beyond its variables: the language stops at it, and a
thread on its own (`Solo`) passes it and counts it.

A run is deterministic, reads only the variables its statements name, and
leaves alone the ones they do not write.
-/

namespace CLSmith

namespace Common

namespace Imp

/-- The contents of the variables. -/
abbrev Env (V : Type) := V → ℤ → ℤ

/-- Expressions: a constant, an element of a variable, and `op`, which is any function
of two values and so total. -/
inductive Expr (V : Type)
  | const (v : ℤ)
  | get (x : V) (i : Expr V)
  | op (f : ℤ → ℤ → ℤ) (a b : Expr V)

/-- A variable with its initial contents, one number for each index it is accessed at. -/
structure Decl (V : Type) where
  var : V
  init : ℤ → ℤ

/-- **Statements.** A `for` is its initialisation followed by a `loop`. A `mark`
stands for what a run cannot decide by itself and has to be told. -/
inductive Stmt (V α : Type)
  | skip
  | assign (x : V) (i e : Expr V)
  | seq (a b : Stmt V α)
  | ifElse (e : Expr V) (a b : Stmt V α)
  | loop (test : Expr V) (incr body : Stmt V α)
  | block (ds : List (Decl V)) (s : Stmt V α)
  | mark (a : α)

variable {V α : Type}

namespace Expr

def eval (ρ : Env V) : Expr V → ℤ
  | const v => v
  | get x i => ρ x (i.eval ρ)
  | op f a b => f (a.eval ρ) (b.eval ρ)

/-- The variables an expression reads. -/
def reads : Expr V → List V
  | const _ => []
  | get x i => x :: i.reads
  | op _ a b => a.reads ++ b.reads

end Expr

namespace Stmt

/-- The variables a statement reads. -/
def reads : Stmt V α → List V
  | skip => []
  | assign _ i e => i.reads ++ e.reads
  | seq a b => a.reads ++ b.reads
  | ifElse e a b => e.reads ++ (a.reads ++ b.reads)
  | loop test incr body => test.reads ++ (incr.reads ++ body.reads)
  | block _ s => s.reads
  | mark _ => []

/-- The variables a statement assigns. -/
def assigns : Stmt V α → List V
  | skip => []
  | assign x _ _ => [x]
  | seq a b => a.assigns ++ b.assigns
  | ifElse _ a b => a.assigns ++ b.assigns
  | loop _ incr body => incr.assigns ++ body.assigns
  | block _ s => s.assigns
  | mark _ => []

/-- The variables a statement declares. -/
def declares : Stmt V α → List V
  | skip => []
  | assign _ _ _ => []
  | seq a b => a.declares ++ b.declares
  | ifElse _ a b => a.declares ++ b.declares
  | loop _ incr body => incr.declares ++ body.declares
  | block ds s => ds.map Decl.var ++ s.declares
  | mark _ => []

end Stmt

/-! ## What a run reads and writes -/

/-- Equal contents of the variables in `A`. -/
def Agree (A : Set V) (ρ σ : Env V) : Prop := ∀ x ∈ A, ρ x = σ x

/-- Every statement left reads within `A`. -/
def ReadsIn (A : Set V) (k : List (Stmt V α)) : Prop := ∀ s ∈ k, ∀ x ∈ s.reads, x ∈ A

/-- Every statement left assigns and declares within `W`. -/
def WritesIn (W : Set V) (k : List (Stmt V α)) : Prop :=
  ∀ s ∈ k, (∀ x ∈ s.assigns, x ∈ W) ∧ ∀ x ∈ s.declares, x ∈ W

variable {A W : Set V} {ρ σ τ ρ' : Env V} {k k' : List (Stmt V α)} {s : Stmt V α}

theorem Agree.symm (h : Agree A ρ σ) : Agree A σ ρ := fun x hx => (h x hx).symm

theorem Agree.trans (h : Agree A ρ σ) (h' : Agree A σ τ) : Agree A ρ τ :=
  fun x hx => (h x hx).trans (h' x hx)

theorem Agree.eval (h : Agree A ρ σ) {e : Expr V} (he : ∀ x ∈ e.reads, x ∈ A) :
    e.eval ρ = e.eval σ := by
  induction e with
  | const v => rfl
  | get x i ih =>
    have hx : ρ x = σ x := h x (he x List.mem_cons_self)
    have hi := ih fun y hy => he y (List.mem_cons_of_mem _ hy)
    unfold Expr.eval
    rw [hx, hi]
  | op f a b iha ihb =>
    have ha := iha fun y hy => he y (List.mem_append_left _ hy)
    have hb := ihb fun y hy => he y (List.mem_append_right _ hy)
    unfold Expr.eval
    rw [ha, hb]

theorem ReadsIn.tail (h : ReadsIn A (s :: k)) : ReadsIn A k :=
  fun t ht => h t (List.mem_cons_of_mem _ ht)

theorem ReadsIn.cons (hs : ∀ x ∈ s.reads, x ∈ A) (hk : ReadsIn A k) : ReadsIn A (s :: k) := by
  intro t ht
  rcases List.mem_cons.mp ht with rfl | ht
  · exact hs
  · exact hk t ht

theorem WritesIn.tail (h : WritesIn W (s :: k)) : WritesIn W k :=
  fun t ht => h t (List.mem_cons_of_mem _ ht)

theorem WritesIn.cons (hs : (∀ x ∈ s.assigns, x ∈ W) ∧ ∀ x ∈ s.declares, x ∈ W)
    (hk : WritesIn W k) : WritesIn W (s :: k) := by
  intro t ht
  rcases List.mem_cons.mp ht with rfl | ht
  · exact hs
  · exact hk t ht

variable [DecidableEq V]

/-- `x[i] = v`. -/
def Env.set (ρ : Env V) (x : V) (i v : ℤ) : Env V :=
  Function.update ρ x (Function.update (ρ x) i v)

/-- The variables of a block come to life. -/
def Env.declare (ρ : Env V) (ds : List (Decl V)) : Env V :=
  ds.foldl (fun σ d => Function.update σ d.var d.init) ρ

theorem Agree.update (h : Agree A ρ σ) (x : V) {f g : ℤ → ℤ} (hfg : x ∈ A → f = g) :
    Agree A (Function.update ρ x f) (Function.update σ x g) := by
  intro y hy
  by_cases hxy : y = x
  · subst hxy
    rw [Function.update_self, Function.update_self]
    exact hfg hy
  · rw [Function.update_of_ne hxy, Function.update_of_ne hxy]
    exact h y hy

theorem Agree.set (h : Agree A ρ σ) (x : V) (i v : ℤ) : Agree A (ρ.set x i v) (σ.set x i v) :=
  h.update x fun hx => by rw [h x hx]

theorem Agree.declare (h : Agree A ρ σ) (ds : List (Decl V)) :
    Agree A (ρ.declare ds) (σ.declare ds) := by
  unfold Env.declare
  induction ds generalizing ρ σ with
  | nil => exact h
  | cons d ds ih => exact ih (h.update d.var fun _ => rfl)

theorem declare_of_notMem {ds : List (Decl V)} {x : V} (h : ∀ d ∈ ds, d.var ≠ x) :
    ρ.declare ds x = ρ x := by
  unfold Env.declare
  induction ds generalizing ρ with
  | nil => rfl
  | cons d ds ih =>
    rw [List.foldl_cons, ih fun d' hd' => h d' (List.mem_cons_of_mem _ hd'),
      Function.update_of_ne (h d List.mem_cons_self).symm]

/-! ## Runs -/

/-- The variables and what is left to do. -/
abbrev Config (V α : Type) := Env V × List (Stmt V α)

/-- **One step**; none at the end, and none at a mark. The rest of the program is a
list, so a block or a loop is unfolded in front of what follows it. -/
def step : Config V α → Option (Config V α)
  | (_, []) => none
  | (ρ, .skip :: k) => some (ρ, k)
  | (ρ, .assign x i e :: k) => some (ρ.set x (i.eval ρ) (e.eval ρ), k)
  | (ρ, .seq a b :: k) => some (ρ, a :: b :: k)
  | (ρ, .ifElse e a b :: k) => some (ρ, (if e.eval ρ ≠ 0 then a else b) :: k)
  | (ρ, .loop test incr body :: k) =>
    some (ρ, if test.eval ρ ≠ 0 then body :: incr :: .loop test incr body :: k else k)
  | (ρ, .block ds s :: k) => some (ρ.declare ds, s :: k)
  | (_, .mark _ :: _) => none

/-- Any number of steps. -/
def Runs : Config V α → Config V α → Prop :=
  Relation.ReflTransGen fun c c' => step c = some c'

/-- **Lockstep**: two environments that agree on what is read take the same
step, and still agree. -/
theorem step_agree (h : step (ρ, k) = some (ρ', k')) (hA : ReadsIn A k) (hρ : Agree A ρ σ) :
    ReadsIn A k' ∧ ∃ σ', step (σ, k) = some (σ', k') ∧ Agree A ρ' σ' := by
  cases k with
  | nil => cases h
  | cons s k =>
    have hs : ∀ x ∈ s.reads, x ∈ A := hA s List.mem_cons_self
    have hk := hA.tail
    cases s with
    | skip =>
      cases h
      exact ⟨hk, σ, rfl, hρ⟩
    | assign x i e =>
      cases h
      have hi := hρ.eval (e := i) (fun y hy => hs y (List.mem_append_left _ hy))
      have he := hρ.eval (e := e) (fun y hy => hs y (List.mem_append_right _ hy))
      refine ⟨hk, σ.set x (i.eval σ) (e.eval σ), rfl, ?_⟩
      rw [hi, he]
      exact hρ.set x _ _
    | seq a b =>
      cases h
      exact ⟨.cons (fun y hy => hs y (List.mem_append_left _ hy))
        (.cons (fun y hy => hs y (List.mem_append_right _ hy)) hk),
        σ, rfl, hρ⟩
    -- the test has one value in both environments, so that both take one branch
    | ifElse e a b =>
      cases h
      have he := hρ.eval (e := e) (fun y hy => hs y (List.mem_append_left _ hy))
      refine ⟨.cons ?_ hk, σ, ?_, hρ⟩
      · split
        · exact fun y hy => hs y (List.mem_append_right _ (List.mem_append_left _ hy))
        · exact fun y hy => hs y (List.mem_append_right _ (List.mem_append_right _ hy))
      · show some (σ, _) = _
        rw [he]
    | loop test incr body =>
      cases h
      have ht := hρ.eval (e := test) (fun y hy => hs y (List.mem_append_left _ hy))
      refine ⟨?_, σ, ?_, hρ⟩
      · split
        · exact .cons (fun y hy => hs y (List.mem_append_right _ (List.mem_append_right _ hy)))
            (.cons (fun y hy => hs y (List.mem_append_right _ (List.mem_append_left _ hy))) hA)
        · exact hk
      · show some (σ, _) = _
        rw [ht]
    | block ds s =>
      cases h
      exact ⟨.cons hs hk, σ.declare ds, rfl, hρ.declare ds⟩
    | mark a => cases h

/-- **Frame**: a step leaves alone what its statements do not write. -/
theorem step_frame (h : step (ρ, k) = some (ρ', k')) (hW : WritesIn W k) :
    WritesIn W k' ∧ Agree Wᶜ ρ' ρ := by
  cases k with
  | nil => cases h
  | cons s k =>
    obtain ⟨ha, hd⟩ := hW s List.mem_cons_self
    have hk := hW.tail
    have hrefl : Agree Wᶜ ρ ρ := fun _ _ => rfl
    cases s with
    | skip =>
      cases h
      exact ⟨hk, hrefl⟩
    | assign x i e =>
      cases h
      refine ⟨hk, fun y hy => ?_⟩
      have hne : y ≠ x := fun he => hy (ha y (by rw [he]; exact List.mem_cons_self))
      exact Function.update_of_ne hne _ _
    | seq a b =>
      cases h
      exact ⟨.cons ⟨fun y hy => ha y (List.mem_append_left _ hy), fun y hy =>
        hd y (List.mem_append_left _ hy)⟩
        (.cons ⟨fun y hy => ha y (List.mem_append_right _ hy), fun y hy =>
          hd y (List.mem_append_right _ hy)⟩ hk), hrefl⟩
    | ifElse e a b =>
      cases h
      refine ⟨.cons ?_ hk, hrefl⟩
      split
      · exact ⟨fun y hy => ha y (List.mem_append_left _ hy), fun y hy =>
          hd y (List.mem_append_left _ hy)⟩
      · exact ⟨fun y hy => ha y (List.mem_append_right _ hy), fun y hy =>
          hd y (List.mem_append_right _ hy)⟩
    | loop test incr body =>
      cases h
      refine ⟨?_, hrefl⟩
      split
      · exact .cons ⟨fun y hy => ha y (List.mem_append_right _ hy), fun y hy =>
          hd y (List.mem_append_right _ hy)⟩
          (.cons ⟨fun y hy => ha y (List.mem_append_left _ hy), fun y hy =>
            hd y (List.mem_append_left _ hy)⟩ hW)
      · exact hk
    -- the declarations are written in one step
    | block ds s =>
      cases h
      refine ⟨.cons ⟨ha, fun y hy => hd y (List.mem_append_right _ hy)⟩ hk, fun y hy => ?_⟩
      exact declare_of_notMem fun d hd' he =>
        hy (hd y (List.mem_append_left _ (List.mem_map.mpr ⟨d, hd', he⟩)))
    | mark a => cases h

/-- Lockstep over a run. -/
theorem Runs.agree {c c' : Config V α} (h : Runs c c') (hA : ReadsIn A c.2)
    (hρ : Agree A c.1 σ) :
    ReadsIn A c'.2 ∧ ∃ σ', Runs (σ, c.2) (σ', c'.2) ∧ Agree A c'.1 σ' := by
  induction h using Relation.ReflTransGen.head_induction_on generalizing σ with
  | refl => exact ⟨hA, σ, .refl, hρ⟩
  | head hstep _ ih =>
    obtain ⟨hA', σ', hσ', hρ'⟩ := step_agree hstep hA hρ
    obtain ⟨hA'', σ'', hσ'', hρ''⟩ := ih hA' hρ'
    exact ⟨hA'', σ'', .head hσ' hσ'', hρ''⟩

/-- What steps by a partial function ends in at most one place. -/
theorem final_unique {γ : Type} {f : γ → Option γ} {c d d' : γ}
    (h : Relation.ReflTransGen (fun x y => f x = some y) c d)
    (h' : Relation.ReflTransGen (fun x y => f x = some y) c d') (hd : f d = none)
    (hd' : f d' = none) : d = d' := by
  have hstop : ∀ {x y : γ}, f x = none →
      Relation.ReflTransGen (fun x y => f x = some y) x y → x = y := by
    intro x y hx hxy
    rcases hxy.cases_head with rfl | ⟨z, hz, -⟩
    · rfl
    · rw [hx] at hz
      cases hz
  have hdet : Relator.RightUnique fun x y => f x = some y := by
    intro x y z hy hz
    exact Option.some.inj (hy.symm.trans hz)
  rcases Relation.ReflTransGen.total_of_right_unique hdet h h' with hr | hr
  · exact hstop hd hr
  · exact (hstop hd' hr).symm

/-- A run of statements to their end has one result. -/
theorem Runs.final (h : Runs (ρ, k) (σ, [])) (h' : Runs (ρ, k) (τ, [])) : σ = τ :=
  congrArg Prod.fst (final_unique h h' rfl rfl)

/-! ## A thread on its own -/

/-- **A run that passes its marks**, and the marks it has passed. It is how a thread
goes on when nobody takes the branch behind a mark. -/
structure Solo (V α : Type) where
  env : Env V
  left : List (Stmt V α)
  passed : List α

namespace Solo

def step (u : Solo V α) : Option (Solo V α) :=
  match u.left with
  | .mark a :: k => some ⟨u.env, k, u.passed ++ [a]⟩
  | k => (Imp.step (u.env, k)).map fun c => ⟨c.1, c.2, u.passed⟩

/-- The places a thread on its own comes by. -/
def Runs : Solo V α → Solo V α → Prop :=
  Relation.ReflTransGen fun u u' => u.step = some u'

variable {u u' : Solo V α} {a : α}

theorem step_mark (h : u.left = .mark a :: k) :
    u.step = some ⟨u.env, k, u.passed ++ [a]⟩ := by
  unfold step
  rw [h]

theorem step_of_step (h : Imp.step (u.env, u.left) = some (ρ', k')) :
    u.step = some ⟨ρ', k', u.passed⟩ := by
  unfold step
  split
  · next hl =>
    rw [hl] at h
    cases h
  · next hl =>
    rw [h]
    rfl

theorem step_cases (h : u.step = some u') :
    (∃ a k, u.left = .mark a :: k ∧ u' = ⟨u.env, k, u.passed ++ [a]⟩) ∨
      ∃ c, Imp.step (u.env, u.left) = some c ∧ u' = ⟨c.1, c.2, u.passed⟩ := by
  unfold step at h
  split at h
  · next a k hl =>
    cases h
    exact Or.inl ⟨a, k, hl, rfl⟩
  · obtain ⟨c, hc, rfl⟩ := Option.map_eq_some_iff.mp h
    exact Or.inr ⟨c, hc, rfl⟩

/-- A thread on its own reads no more than its statements name. -/
theorem Runs.readsIn (h : Solo.Runs u u') (hA : ReadsIn A u.left) : ReadsIn A u'.left := by
  induction h with
  | refl => exact hA
  | tail _ hstep ih =>
    obtain ⟨a, k, hl, rfl⟩ | ⟨c, hc, rfl⟩ := step_cases hstep
    · rw [hl] at ih
      exact ih.tail
    · exact (step_agree hc ih fun _ _ => rfl).1

/-- Nor does it write more. -/
theorem Runs.frame (h : Solo.Runs u u') (hW : WritesIn W u.left) :
    WritesIn W u'.left ∧ Agree Wᶜ u'.env u.env := by
  induction h with
  | refl => exact ⟨hW, fun _ _ => rfl⟩
  | tail _ hstep ih =>
    obtain ⟨ihW, ihA⟩ := ih
    obtain ⟨a, k, hl, rfl⟩ | ⟨c, hc, rfl⟩ := step_cases hstep
    · rw [hl] at ihW
      exact ⟨ihW.tail, ihA⟩
    · obtain ⟨hW', hA'⟩ := step_frame hc ihW
      exact ⟨hW', hA'.trans ihA⟩

end Solo

end Imp

end Common

end CLSmith
