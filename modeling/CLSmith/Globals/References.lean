import CLSmith.Globals.Struct
import Mathlib.Logic.Function.Basic
import Mathlib.Data.List.Infix
/-!
# References to the globals

`ModifyGlobalVariableReferences` puts the access to the struct of the
globals before the name of each of them, in the variables themselves. The
names of the fields of an array item hold the text of its index, so that
`FixStructArrays` looks for global names in there too. A name is made of
pieces here, global names and other text: rewritten rightly it prints as
before, with the access before each global name.
-/

namespace CLSmith

namespace Globals

/-- A piece of a name: that of a global variable, which the access is put before, or
any other text. -/
inductive Piece
  | globalName (n : List Char)
  | text (s : List Char)
deriving DecidableEq

def Piece.print (access : List Char) : Piece → List Char
  | globalName n => access ++ n
  | text s => s

/-- **A name, printed** with `access` before the global names in it. The other pieces
of the name are printed as they are. -/
def print (access : List Char) (ps : List Piece) : List Char := ps.flatMap (Piece.print access)

/-- The loop of `FixStructArrays`; `p` are the two characters before. -/
def insertAccess (access : List Char) : Char × Char → List Char → List Char
  | _, [] => []
  | p, c :: cs =>
    (if c = 'g' ∧ cs.head? = some '_' ∧ p ≠ ('-', '>') then access else []) ++
      c :: insertAccess access (p.2, c) cs

/-- `FixStructArrays` from the first bracket on. -/
def fixStructArrays (access name : List Char) : List Char :=
  name.takeWhile (fun c => decide (c ≠ '[')) ++
    insertAccess access (' ', ' ') (name.dropWhile fun c => decide (c ≠ '['))

mutual

/-- **A variable**, with what its name is and its `field_vars`. Whether its type is a
struct or a union decides if these are gone through. -/
inductive NamedVar (N : Type)
  | mk (name : N) (aggregate : Bool) (fieldVars : NamedVars N)

inductive NamedVars (N : Type)
  | nil
  | cons (field : NamedVar N) (rest : NamedVars N)

end

mutual

def NamedVar.map {N N' : Type} (f : N → N') : NamedVar N → NamedVar N'
  | .mk name aggregate fieldVars => .mk (f name) aggregate (fieldVars.map f)

def NamedVars.map {N N' : Type} (f : N → N') : NamedVars N → NamedVars N'
  | .nil => .nil
  | .cons field rest => .cons (field.map f) (rest.map f)

end

mutual

/-- What `ModifyGlobalAggregateVariableReferences` does to one field. -/
def NamedVar.modifyField (access : List Char) : NamedVar (List Char) → NamedVar (List Char)
  | .mk name aggregate fieldVars =>
    let name := access ++ name
    let fieldVars := if aggregate then fieldVars.modify access else fieldVars
    .mk (if '[' ∈ name then fixStructArrays access name else name) aggregate fieldVars

/-- **`ModifyGlobalAggregateVariableReferences`**: the fields of an aggregate one
after the other, each with its own. -/
def NamedVars.modify (access : List Char) : NamedVars (List Char) → NamedVars (List Char)
  | .nil => .nil
  | .cons field rest => .cons (field.modifyField access) (rest.modify access)

end

namespace NamedVar

variable {N : Type}

def name : NamedVar N → N
  | mk name _ _ => name

def aggregate : NamedVar N → Bool
  | mk _ aggregate _ => aggregate

def fieldVars : NamedVar N → NamedVars N
  | mk _ _ fieldVars => fieldVars

/-- A global variable gets the access. -/
def modifyGlobal (access : List Char) (v : NamedVar (List Char)) : NamedVar (List Char) :=
  mk (access ++ v.name) v.aggregate
    (if v.aggregate then v.fieldVars.modify access else v.fieldVars)

end NamedVar

/-- The fields of a local variable, of which only the names with a bracket
are looked at. -/
def NamedVars.fixLocal (access : List Char) : NamedVars (List Char) → NamedVars (List Char)
  | .nil => .nil
  | .cons (.mk name aggregate fieldVars) rest =>
    .cons (.mk (if '[' ∈ name then fixStructArrays access name else name) aggregate fieldVars)
      (rest.fixLocal access)

/-- One variable of `GetAllVariables`. -/
def NamedVar.modifyAll (access : List Char) (buffer : Bool) (v : NamedVar (List Char)) :
    NamedVar (List Char) :=
  let v := if ['g', '_'] <+: v.name ∧ buffer = false then v.modifyGlobal access else v
  if ['l', '_'] <+: v.name ∧ v.aggregate then .mk v.name v.aggregate (v.fieldVars.fixLocal access)
  else v

/-- The lists `ModifyGlobalVariableReferences` goes through; a number stands
for a pointer. -/
structure Lists where
  globalVars : List ℕ
  allVariables : List ℕ
  buffers : List ℕ

/-- A loop that changes each variable of a list. -/
def changeEach (change : ℕ → NamedVar (List Char) → NamedVar (List Char)) (l : List ℕ)
    (var : ℕ → NamedVar (List Char)) : ℕ → NamedVar (List Char) :=
  l.foldl (fun var i => Function.update var i (change i (var i))) var

/-- **`ModifyGlobalVariableReferences`**. The global variables, all variables and the
buffers are gone through in this order, so a variable can be come to more than once. -/
def modifyGlobalVariableReferences (access : List Char) (g : Lists)
    (var : ℕ → NamedVar (List Char)) : ℕ → NamedVar (List Char) :=
  let var := changeEach (fun _ => NamedVar.modifyGlobal access) g.globalVars var
  let var := changeEach (fun i => NamedVar.modifyAll access (decide (i ∈ g.buffers)))
    g.allVariables var
  changeEach (fun _ => NamedVar.modifyGlobal access) g.buffers var

/-! ## What is printed -/

def NamedVars.get? {N : Type} : NamedVars N → ℕ → Option (NamedVar N)
  | .nil, _ => none
  | .cons field _, 0 => some field
  | .cons _ rest, k + 1 => rest.get? k

/-- A field of a field, and so on. -/
def NamedVar.at? {N : Type} : NamedVar N → List ℕ → Option (NamedVar N)
  | v, [] => some v
  | v, k :: path => (v.fieldVars.get? k).bind fun field => field.at? path

/-- A piece of what `Output` prints for an array item with its index, or for
an expression: text, or a variable by its name at that time. -/
inductive Printed
  | text (s : List Char)
  | name (i : ℕ) (path : List ℕ)

def output (var : ℕ → NamedVar (List Char)) (ps : List Printed) : List Char :=
  ps.flatMap fun
    | .text s => s
    | .name i path => ((var i).at? path).elim [] NamedVar.name

/-! ## Inserting the access -/

/-- No global name begins in a text. -/
def NoMark (s : List Char) : Prop := ∀ l r, s ≠ l ++ 'g' :: '_' :: r

/-- A text that does not run into what comes after it. -/
structure Plain (s : List Char) : Prop where
  noMark : NoMark s
  last_ne_g : s.getLast? ≠ some 'g'
  last_ne_arrow : s.getLast? ≠ some '>'

/-- Pieces as names have them: a global name begins with `g_`. -/
def Piece.Plain : Piece → Prop
  | globalName n => ∃ w, n = 'g' :: '_' :: w ∧ Globals.Plain ('_' :: w)
  | text s => Globals.Plain s

/-- The last two characters after a text. -/
def lastTwo (p : Char × Char) (s : List Char) : Char × Char := s.foldl (fun p c => (p.2, c)) p

section Insert

variable {access s r w : List Char} {p : Char × Char} {ps : List Piece}

theorem NoMark.of_cons {c : Char} (h : NoMark (c :: s)) : NoMark s := by
  rintro l r rfl
  exact h (c :: l) r rfl

theorem noMark_iff : NoMark s ↔ ¬['g', '_'] <:+: s := by
  constructor
  · rintro h ⟨l, r, rfl⟩
    exact h l r (by simp)
  · rintro h l r rfl
    exact h ⟨l, r, by simp⟩

theorem lastTwo_snd (s : List Char) (p : Char × Char) : (lastTwo p s).2 = s.getLast?.getD p.2 := by
  induction s generalizing p with
  | nil => rfl
  | cons c s ih =>
    rw [lastTwo, List.foldl_cons, ← lastTwo, ih, List.getLast?_cons]
    rfl

theorem insertAccess_append (hs : NoMark s) (hlast : s.getLast? ≠ some 'g') (r : List Char)
    (p : Char × Char) :
    insertAccess access p (s ++ r) = s ++ insertAccess access (lastTwo p s) r := by
  induction s generalizing p with
  | nil => rfl
  | cons c s ih =>
    have hnot : ¬(c = 'g' ∧ (s ++ r).head? = some '_' ∧ p ≠ ('-', '>')) := by
      rintro ⟨rfl, hhead, -⟩
      cases s with
      | nil => exact hlast rfl
      | cons c' s =>
        obtain rfl : c' = '_' := by simpa using hhead
        exact hs [] s rfl
    have hlast' : s.getLast? ≠ some 'g' := by
      cases s with
      | nil => simp
      | cons c' s => rwa [List.getLast?_cons_cons] at hlast
    rw [List.cons_append, insertAccess, if_neg hnot, ih hs.of_cons hlast']
    rfl

theorem Plain.lastTwo (hs : Plain s) (hp : p.2 ≠ '>') : (lastTwo p s).2 ≠ '>' := by
  rw [lastTwo_snd]
  cases h : s.getLast? with
  | none => exact hp
  | some c =>
    have := hs.last_ne_arrow
    rw [h] at this
    simpa using this

/-- The access goes before each global name. -/
theorem insertAccess_print (hps : ∀ q ∈ ps, q.Plain) (hp : p.2 ≠ '>') :
    insertAccess access p (print [] ps) = print access ps := by
  induction ps generalizing p with
  | nil => rfl
  | cons q ps ih =>
    obtain ⟨hq, hrest⟩ := List.forall_mem_cons.mp hps
    cases q with
    | text s =>
      have hs : Plain s := hq
      rw [print, List.flatMap_cons, Piece.print, insertAccess_append hs.noMark hs.last_ne_g]
      rw [← print, ih hrest (hs.lastTwo hp)]
      rfl
    | globalName n =>
      obtain ⟨w, rfl, hw⟩ := hq
      have hg : ((p.2, 'g') : Char × Char).2 ≠ '>' := by simp
      have hmark : 'g' = 'g' ∧ ('_' :: w ++ print [] ps).head? = some '_' ∧ p ≠ ('-', '>') :=
        ⟨rfl, rfl, fun h => hp (by rw [h])⟩
      rw [print, List.flatMap_cons, Piece.print, List.nil_append, ← print, List.cons_append,
        insertAccess, if_pos hmark, insertAccess_append hw.noMark hw.last_ne_g,
        ih hrest (hw.lastTwo hg)]
      simp [print, Piece.print]

/-- **It is there once**: where it is, it does not go again. -/
theorem insertAccess_print_again {structVar : List Char}
    (haccess : access = structVar ++ ['-', '>'])
    (hmark : NoMark access) (hps : ∀ q ∈ ps, q.Plain) (hp : p.2 ≠ '>') :
    insertAccess access p (print access ps) = print access ps := by
  induction ps generalizing p with
  | nil => rfl
  | cons q ps ih =>
    obtain ⟨hq, hrest⟩ := List.forall_mem_cons.mp hps
    cases q with
    | text s =>
      have hs : Plain s := hq
      rw [print, List.flatMap_cons, Piece.print, insertAccess_append hs.noMark hs.last_ne_g]
      rw [← print, ih hrest (hs.lastTwo hp)]
    | globalName n =>
      obtain ⟨w, rfl, hw⟩ := hq
      have hlast : access.getLast? ≠ some 'g' := by simp [haccess]
      have hg : (('>', 'g') : Char × Char).2 ≠ '>' := by simp
      have htwo : lastTwo p access = ('-', '>') := by
        rw [haccess, lastTwo, List.foldl_append]
        rfl
      have hnot : ¬('g' = 'g' ∧ ('_' :: w ++ print access ps).head? = some '_' ∧
          (('-', '>') : Char × Char) ≠ ('-', '>')) := fun h => h.2.2 rfl
      rw [print, List.flatMap_cons, Piece.print, ← print, List.append_assoc,
        insertAccess_append hmark hlast, htwo, List.cons_append, insertAccess, if_neg hnot,
        insertAccess_append hw.noMark hw.last_ne_g, ih hrest (hw.lastTwo hg)]
      simp

end Insert

/-! ## Names and their fields -/

/-- The access to the struct: the name of its variable and an arrow. -/
structure Access (access : List Char) : Prop where
  arrow : ∃ structVar, access = structVar ++ ['-', '>']
  noMark : NoMark access
  noBracket : '[' ∉ access
  notGlobal : ∀ s, ¬['g', '_'] <+: access ++ s
  notLocal : ∀ s, ¬['l', '_'] <+: access ++ s

/-- What the name of a field has after that of its variable: where there is
an index it comes first. -/
structure Tail (tail : List Piece) : Prop where
  plain : ∀ q ∈ tail, q.Plain
  index : (∃ s rest, tail = .text ('[' :: s) :: rest) ∨ ∀ q ∈ tail, ∃ s, q = .text s ∧ '[' ∉ s

/-- The name of a field of `root`. -/
def FieldName (root : Piece) (ps : List Piece) : Prop := ∃ tail, ps = root :: tail ∧ Tail tail

/-- There is no global name in it. -/
def NoGlobal (ps : List Piece) : Prop := ∀ q ∈ ps, ∃ s, q = .text s

mutual

/-- All names of a variable. -/
def NamedVar.All {N : Type} (P : N → Prop) : NamedVar N → Prop
  | .mk name _ fieldVars => P name ∧ fieldVars.All P

def NamedVars.All {N : Type} (P : N → Prop) : NamedVars N → Prop
  | .nil => True
  | .cons field rest => field.All P ∧ rest.All P

end

mutual

/-- Only a struct or union has fields. -/
def NamedVar.Shape {N : Type} : NamedVar N → Prop
  | .mk _ aggregate fieldVars => (aggregate = false → fieldVars = .nil) ∧ fieldVars.Shape

def NamedVars.Shape {N : Type} : NamedVars N → Prop
  | .nil => True
  | .cons field rest => field.Shape ∧ rest.Shape

end

/-- `f` of the names of the fields and `g` of those of their fields. -/
def NamedVars.mapTop {N N' : Type} (f g : N → N') : NamedVars N → NamedVars N'
  | .nil => .nil
  | .cons (.mk name aggregate fieldVars) rest =>
    .cons (.mk (f name) aggregate (fieldVars.map g)) (rest.mapTop f g)

/-- The names of the fields of fields. -/
def NamedVars.AllNested {N : Type} (P : N → Prop) : NamedVars N → Prop
  | .nil => True
  | .cons field rest => field.fieldVars.All P ∧ rest.AllNested P

section Names

variable {access a n : List Char} {tail ps : List Piece} {root : Piece}

theorem print_of_noGlobal (h : NoGlobal ps) (a b : List Char) : print a ps = print b ps := by
  induction ps with
  | nil => rfl
  | cons q ps ih =>
    obtain ⟨⟨s, rfl⟩, hrest⟩ := List.forall_mem_cons.mp h
    rw [print, List.flatMap_cons, ← print, ih hrest]
    rfl

/-- Names differ with the access and without just where they hold a global
name. -/
theorem print_eq_iff (ha : Access access) : print [] ps = print access ps ↔ NoGlobal ps := by
  refine ⟨fun h => ?_, fun h => print_of_noGlobal h _ _⟩
  have hle : ∀ qs : List Piece, (print [] qs).length ≤ (print access qs).length := by
    intro qs
    induction qs with
    | nil => exact le_rfl
    | cons q qs ih =>
      cases q <;> simp only [print, List.flatMap_cons, Piece.print, List.length_append,
        List.length_nil] at ih ⊢ <;> omega
  have hpos : 0 < access.length := by
    obtain ⟨structVar, rfl⟩ := ha.arrow
    simp
  induction ps with
  | nil => exact fun q hq => absurd hq List.not_mem_nil
  | cons q ps ih =>
    cases q with
    | text s =>
      refine List.forall_mem_cons.mpr ⟨⟨s, rfl⟩, ih ?_⟩
      simpa [print, Piece.print] using h
    | globalName n =>
      have hlen := congrArg List.length h
      have := hle ps
      simp only [print, List.flatMap_cons, Piece.print, List.length_append,
        List.length_nil] at hlen this
      omega

/-- **`FixStructArrays` of a name** that was or was not fixed before. -/
theorem fix_name (ha : Access access) (hn : '[' ∉ n) (ht : Tail tail) (h : a = [] ∨ a = access) :
    (if '[' ∈ n ++ print a tail then fixStructArrays access (n ++ print a tail)
      else n ++ print a tail) = n ++ print access tail := by
  rcases ht.index with ⟨s, rest, rfl⟩ | htext
  · have hbracket : print a (.text ('[' :: s) :: rest) = '[' :: (s ++ print a rest) := rfl
    have htake : (n ++ print a (.text ('[' :: s) :: rest)).takeWhile
        (fun c => decide (c ≠ '[')) = n := by
      rw [hbracket, List.takeWhile_append_of_pos]
      · simp
      · intro c hc
        exact decide_eq_true fun heq => hn (heq ▸ hc)
    have hdrop : (n ++ print a (.text ('[' :: s) :: rest)).dropWhile (fun c => decide (c ≠ '[')) =
        print a (.text ('[' :: s) :: rest) := by
      rw [hbracket, List.dropWhile_append_of_pos]
      · exact List.dropWhile_cons_of_neg (by simp)
      · intro c hc
        exact decide_eq_true fun heq => hn (heq ▸ hc)
    rw [if_pos (by rw [hbracket]; simp), fixStructArrays, htake, hdrop]
    rcases h with rfl | rfl
    · rw [insertAccess_print ht.plain (by decide)]
    · obtain ⟨structVar, hstruct⟩ := ha.arrow
      rw [insertAccess_print_again hstruct ha.noMark ht.plain (by decide)]
  · have hnone : NoGlobal tail := fun q hq => (htext q hq).imp fun s hs => hs.1
    have hbracket : '[' ∉ n ++ print a tail := by
      intro hmem
      rcases List.mem_append.mp hmem with hmem | hmem
      · exact hn hmem
      · obtain ⟨q, hq, hc⟩ := List.mem_flatMap.mp hmem
        obtain ⟨s, rfl, hs⟩ := htext q hq
        exact hs hc
    rw [if_neg hbracket, print_of_noGlobal hnone]

/-- A field that has its own name right, where its fields are. -/
theorem modifyField_name (ha : Access access) (hn : '[' ∉ n) (h : a = [] ∨ a = access)
    (ht : Tail tail) {aggregate : Bool} {fieldVars : NamedVars (List Piece)}
    (hagg : aggregate = false → fieldVars = .nil)
    (hfields : (fieldVars.map (print [])).modify access = fieldVars.map (print access)) :
    (NamedVar.mk (n ++ print a tail) aggregate (fieldVars.map (print []))).modifyField access =
      (NamedVar.mk (.globalName n :: tail) aggregate fieldVars).map (print access) := by
  have hname := fix_name (n := access ++ n) ha (by simp [ha.noBracket, hn]) ht h
  rw [NamedVar.modifyField, NamedVar.map]
  simp only [← List.append_assoc, hname]
  congr 1
  cases aggregate with
  | true => exact hfields
  | false =>
    rw [hagg rfl]
    rfl

mutual

/-- **A field of a global variable** is printed rightly afterwards. -/
theorem modifyField_map (ha : Access access) (hn : '[' ∉ n) : ∀ (v : NamedVar (List Piece)),
    v.All (FieldName (.globalName n)) → v.Shape →
      (v.map (print [])).modifyField access = v.map (print access)
  | .mk _ _ fieldVars, ⟨⟨tail, rfl, ht⟩, hfields⟩, ⟨hagg, hshape⟩ =>
    modifyField_name ha hn (.inl rfl) ht hagg (modify_map ha hn fieldVars hfields hshape)

theorem modify_map (ha : Access access) (hn : '[' ∉ n) : ∀ (vs : NamedVars (List Piece)),
    vs.All (FieldName (.globalName n)) → vs.Shape →
      (vs.map (print [])).modify access = vs.map (print access)
  | .nil, _, _ => rfl
  | .cons field rest, ⟨hfield, hrest⟩, ⟨hshape, hshapes⟩ => by
    rw [NamedVars.map, NamedVars.modify, NamedVars.map, modifyField_map ha hn field hfield hshape,
      modify_map ha hn rest hrest hshapes]

end

/-- The fields of a local variable get their own names right, and theirs not. -/
theorem fixLocal_map (ha : Access access) (hn : '[' ∉ n) (hroot : root.print [] = n)
    (vs : NamedVars (List Piece)) (hvs : vs.All (FieldName root)) :
    (vs.map (print [])).fixLocal access =
      vs.mapTop (fun ps => n ++ print access ps.tail) (print []) := by
  match vs, hvs with
  | .nil, _ => rfl
  | .cons (.mk _ _ _) rest, ⟨⟨⟨tail, rfl, ht⟩, _⟩, hrest⟩ =>
    have hname := fix_name (a := []) ha hn ht (.inl rfl)
    have hprint : print [] (root :: tail) = n ++ print [] tail := by
      rw [print, List.flatMap_cons, hroot]
      rfl
    rw [NamedVars.map, NamedVar.map, NamedVars.fixLocal, NamedVars.mapTop,
      fixLocal_map ha hn hroot rest hrest, hprint, hname]
    rfl

/-- **A buffer that was taken for a local variable** comes out right. -/
theorem modify_mapTop (ha : Access access) (hn : '[' ∉ n) (vs : NamedVars (List Piece))
    (hvs : vs.All (FieldName (.globalName n))) (hshape : vs.Shape) :
    (vs.mapTop (fun ps => n ++ print access ps.tail) (print [])).modify access =
      vs.map (print access) := by
  match vs, hvs, hshape with
  | .nil, _, _ => rfl
  | .cons (.mk _ _ fieldVars) rest, ⟨⟨⟨tail, rfl, ht⟩, hfields⟩, hrest⟩,
      ⟨⟨hagg, hshape⟩, hshapes⟩ =>
    have hfield := modifyField_name ha hn (.inr rfl) ht hagg
      (modify_map ha hn fieldVars hfields hshape)
    rw [NamedVars.mapTop, NamedVars.modify, NamedVars.map, modify_mapTop ha hn rest hrest hshapes]
    exact congrArg (NamedVars.cons · _) hfield

end Names

section Map

variable {N N' : Type} {f g : N → N'}

mutual

theorem NamedVar.map_eq_map_iff : ∀ (v : NamedVar N), v.map f = v.map g ↔ v.All fun n => f n = g n
  | .mk name _ fieldVars => by
    simp [NamedVar.map, NamedVar.All, NamedVars.map_eq_map_iff fieldVars]

theorem NamedVars.map_eq_map_iff : ∀ (vs : NamedVars N),
    vs.map f = vs.map g ↔ vs.All fun n => f n = g n
  | .nil => by simp [NamedVars.map, NamedVars.All]
  | .cons field rest => by
    simp [NamedVars.map, NamedVars.All, NamedVar.map_eq_map_iff field,
      NamedVars.map_eq_map_iff rest]

end

theorem NamedVars.mapTop_eq_map_iff (vs : NamedVars N) :
    vs.mapTop f g = vs.map f ↔ vs.AllNested fun n => g n = f n := by
  match vs with
  | .nil => simp [NamedVars.mapTop, NamedVars.map, NamedVars.AllNested]
  | .cons (.mk _ _ fieldVars) rest =>
    simp [NamedVars.mapTop, NamedVars.map, NamedVars.AllNested, NamedVar.map, NamedVar.fieldVars,
      NamedVars.mapTop_eq_map_iff rest, NamedVars.map_eq_map_iff fieldVars]

/-- A loop over different variables changes each once. -/
theorem changeEach_apply {change : ℕ → NamedVar (List Char) → NamedVar (List Char)} {l : List ℕ}
    (hl : l.Nodup) (var : ℕ → NamedVar (List Char)) (i : ℕ) :
    changeEach change l var i = if i ∈ l then change i (var i) else var i := by
  induction l generalizing var with
  | nil => rfl
  | cons j l ih =>
    obtain ⟨hj, hl⟩ := List.nodup_cons.mp hl
    rw [changeEach, List.foldl_cons, ← changeEach, ih hl]
    rcases eq_or_ne i j with rfl | hne
    · rw [if_neg hj, if_pos List.mem_cons_self, Function.update_self]
    · simp only [List.mem_cons, hne, false_or, Function.update_of_ne hne]

theorem NamedVars.get?_map (f : N → N') (vs : NamedVars N) (k : ℕ) :
    (vs.map f).get? k = (vs.get? k).map (NamedVar.map f) := by
  match vs, k with
  | .nil, _ => rfl
  | .cons _ _, 0 => rfl
  | .cons _ rest, k + 1 => exact NamedVars.get?_map f rest k

theorem NamedVar.at?_map (f : N → N') (v : NamedVar N) (path : List ℕ) :
    (v.map f).at? path = (v.at? path).map (NamedVar.map f) := by
  induction path generalizing v with
  | nil => rfl
  | cons k path ih =>
    have hfields : (v.map f).fieldVars = v.fieldVars.map f := by
      cases v
      rfl
    rw [NamedVar.at?, NamedVar.at?, hfields, NamedVars.get?_map]
    cases v.fieldVars.get? k with
    | none => rfl
    | some field => exact ih field

theorem NamedVars.mapTop_congr {P : N → Prop} {f' : N → N'} (vs : NamedVars N) (hvs : vs.All P)
    (hf : ∀ n, P n → f n = f' n) : vs.mapTop f g = vs.mapTop f' g := by
  match vs, hvs with
  | .nil, _ => rfl
  | .cons (.mk name _ _) rest, ⟨⟨hname, _⟩, hrest⟩ =>
    rw [NamedVars.mapTop, NamedVars.mapTop, hf name hname, NamedVars.mapTop_congr rest hrest hf]

end Map

/-! ## A whole program -/

/-- A variable: its name, whether it is an aggregate, and the names of its fields in
pieces. -/
structure Declared where
  name : List Char
  aggregate : Bool
  fieldVars : NamedVars (List Piece)

/-- The variables of a program, array items too, in the lists the pass goes through. -/
structure Program extends Lists where
  declared : ℕ → Declared

namespace Program

variable (g : Program)

def Mem (i : ℕ) : Prop := i ∈ g.globalVars ∨ i ∈ g.allVariables ∨ i ∈ g.buffers

/-- A global variable, an item of one, or a buffer. -/
def IsGlobal (i : ℕ) : Prop :=
  i ∈ g.globalVars ∨ i ∈ g.buffers ∨ ['g', '_'] <+: (g.declared i).name

instance (i : ℕ) : Decidable (g.IsGlobal i) := inferInstanceAs (Decidable (_ ∨ _ ∨ _))

def root (i : ℕ) : Piece :=
  if g.IsGlobal i then .globalName (g.declared i).name else .text (g.declared i).name

/-- What a variable and its fields are to be called. -/
def pieces (i : ℕ) : NamedVar (List Piece) :=
  .mk [g.root i] (g.declared i).aggregate (g.declared i).fieldVars

/-- What they are called before `ModifyGlobalVariableReferences`. -/
def var (i : ℕ) : NamedVar (List Char) := (g.pieces i).map (print [])

/-- Global variables and buffers are different, and fields are called after
their variable. -/
structure WF : Prop where
  nodup_globalVars : g.globalVars.Nodup
  nodup_allVariables : g.allVariables.Nodup
  nodup_buffers : g.buffers.Nodup
  disjoint : ∀ i ∈ g.globalVars, i ∉ g.buffers
  noBracket : ∀ i, g.Mem i → '[' ∉ (g.declared i).name
  fields : ∀ i, g.Mem i → (g.declared i).fieldVars.All (FieldName (g.root i))
  shape : ∀ i, g.Mem i → (g.pieces i).Shape

/-- What an `Output` is to print. -/
def printedPieces (ps : List Printed) : List Piece :=
  ps.flatMap fun
    | .text s => [.text s]
    | .name i path => ((g.pieces i).at? path).elim [] NamedVar.name

/-- **The access stands before every global name** in what is printed, and
nothing else is changed. -/
structure Prefixed (access : List Char) (var : ℕ → NamedVar (List Char)) : Prop where
  names : ∀ i, g.Mem i → var i = (g.pieces i).map (print access)
  items : ∀ ps : List Printed, (∀ i path, .name i path ∈ ps → g.Mem i) →
    output var ps = print access (g.printedPieces ps)

/-- A local variable has no global name where `FixStructArrays` does not look:
that is, below its first fields. -/
def Covered (i : ℕ) : Prop :=
  if ['l', '_'] <+: (g.declared i).name ∧ (g.declared i).aggregate then
    (g.declared i).fieldVars.AllNested NoGlobal
  else (g.declared i).fieldVars.All NoGlobal

section

variable {g} {access : List Char} {i : ℕ}

theorem var_name (i : ℕ) : (g.var i).name = (g.declared i).name := by
  have hprint : (g.root i).print [] = (g.declared i).name := by
    rw [root]
    split <;> rfl
  simp [var, pieces, NamedVar.map, NamedVar.name, print, hprint]

/-- **A global variable** whose fields are as before. -/
theorem modifyGlobal_var (ha : Access access) (hg : g.WF) (hi : g.Mem i) (hglobal : g.IsGlobal i) :
    (g.var i).modifyGlobal access = (g.pieces i).map (print access) := by
  have hroot : g.root i = .globalName (g.declared i).name := if_pos hglobal
  have hfields := hg.fields i hi
  obtain ⟨hagg, hshape⟩ := hg.shape i hi
  rw [hroot] at hfields
  have hmodify := modify_map ha (hg.noBracket i hi) _ hfields hshape
  rw [NamedVar.modifyGlobal, var_name, pieces, NamedVar.map, hroot]
  simp only [var, pieces, NamedVar.map, NamedVar.aggregate, NamedVar.fieldVars]
  congr 1
  · simp [print, Piece.print]
  · split
    · exact hmodify
    · rename_i hnot
      rw [hagg (by simpa using hnot)]
      rfl

/-- A buffer that was taken for a local variable. -/
theorem modifyGlobal_fixLocal (ha : Access access) (hg : g.WF) (hi : g.Mem i)
    (hglobal : g.IsGlobal i) (hagg : (g.declared i).aggregate = true) :
    (NamedVar.mk (g.declared i).name true
      ((g.var i).fieldVars.fixLocal access)).modifyGlobal access =
      (g.pieces i).map (print access) := by
  have hroot : g.root i = .globalName (g.declared i).name := if_pos hglobal
  have hfields := hg.fields i hi
  rw [hroot] at hfields
  have hfix := fixLocal_map ha (hg.noBracket i hi) rfl _ hfields
  have hmodify := modify_mapTop ha (hg.noBracket i hi) _ hfields (hg.shape i hi).2
  have hvar : (g.var i).fieldVars = (g.declared i).fieldVars.map (print []) := rfl
  rw [hvar, hfix, NamedVar.modifyGlobal, pieces, NamedVar.map, hroot, hagg]
  simp only [NamedVar.name, NamedVar.aggregate, NamedVar.fieldVars, if_true, hmodify]
  simp [print, Piece.print]

/-- What is done to a variable that is neither in the list of the globals nor
a buffer. -/
theorem modifyAll_var (ha : Access access) (hg : g.WF) (hi : g.Mem i) (hbuffer : i ∉ g.buffers) :
    (g.var i).modifyAll access (decide (i ∈ g.buffers)) =
      if ['g', '_'] <+: (g.declared i).name then (g.pieces i).map (print access)
      else if ['l', '_'] <+: (g.declared i).name ∧ (g.declared i).aggregate then
        .mk (g.declared i).name true ((g.var i).fieldVars.fixLocal access)
      else g.var i := by
  have haggregate : (g.var i).aggregate = (g.declared i).aggregate := rfl
  rw [NamedVar.modifyAll, var_name]
  simp only [hbuffer, decide_false, and_true]
  split
  · rename_i hname
    have hlocal : ¬['l', '_'] <+: ((g.var i).modifyGlobal access).name := by
      rw [NamedVar.modifyGlobal, NamedVar.name]
      exact ha.notLocal _
    simp only [hlocal, false_and, if_false]
    exact modifyGlobal_var ha hg hi (.inr (.inr hname))
  · rw [var_name, haggregate]
    split
    · rename_i h
      rw [h.2]
    · rfl

theorem modified_apply (hg : g.WF) (i : ℕ) :
    modifyGlobalVariableReferences access g.toLists g.var i =
      let v := if i ∈ g.globalVars then (g.var i).modifyGlobal access else g.var i
      let v := if i ∈ g.allVariables then v.modifyAll access (decide (i ∈ g.buffers)) else v
      if i ∈ g.buffers then v.modifyGlobal access else v := by
  rw [modifyGlobalVariableReferences, changeEach_apply hg.nodup_buffers,
    changeEach_apply hg.nodup_allVariables, changeEach_apply hg.nodup_globalVars]

/-- A name with the access before it is neither `g_` nor `l_` any more. -/
theorem modifyAll_modifyGlobal (ha : Access access) (v : NamedVar (List Char)) (buffer : Bool) :
    (v.modifyGlobal access).modifyAll access buffer = v.modifyGlobal access := by
  have hglobal : ¬['g', '_'] <+: (v.modifyGlobal access).name := ha.notGlobal _
  have hlocal : ¬['l', '_'] <+: (v.modifyGlobal access).name := ha.notLocal _
  simp [NamedVar.modifyAll, hglobal, hlocal]

theorem modified_of_isGlobal (ha : Access access) (hg : g.WF) (hi : g.Mem i)
    (hglobal : g.IsGlobal i) :
    modifyGlobalVariableReferences access g.toLists g.var i = (g.pieces i).map (print access) := by
  rw [modified_apply hg]
  by_cases hmem : i ∈ g.globalVars
  · simp only [hmem, if_true, hg.disjoint i hmem, if_false, modifyAll_modifyGlobal ha, ite_self]
    exact modifyGlobal_var ha hg hi hglobal
  by_cases hbuffer : i ∈ g.buffers
  · simp only [hmem, if_false, hbuffer, if_true, decide_true]
    split
    · -- the second loop may have been at it already
      have haggregate : (g.var i).aggregate = (g.declared i).aggregate := rfl
      simp only [NamedVar.modifyAll, Bool.true_eq_false, and_false, if_false, var_name, haggregate]
      split
      · rename_i h
        rw [h.2]
        exact modifyGlobal_fixLocal ha hg hi hglobal h.2
      · exact modifyGlobal_var ha hg hi hglobal
    · exact modifyGlobal_var ha hg hi hglobal
  have hname : ['g', '_'] <+: (g.declared i).name :=
    (hglobal.resolve_left hmem).resolve_left hbuffer
  have hall : i ∈ g.allVariables := (hi.resolve_left hmem).resolve_right hbuffer
  have hmodify := modifyAll_var ha hg hi hbuffer
  simp only [hname, if_true, hbuffer, decide_false] at hmodify
  simp only [hmem, if_false, hbuffer, hall, if_true, decide_false, hmodify]

/-- **A local variable** is right afterwards just where nothing was to be done
below its first fields. -/
theorem modified_of_not_isGlobal (ha : Access access) (hg : g.WF) (hi : g.Mem i)
    (hlocal : ¬g.IsGlobal i) :
    modifyGlobalVariableReferences access g.toLists g.var i = (g.pieces i).map (print access) ↔
      g.Covered i := by
  obtain ⟨hmem, hbuffer, hname⟩ := not_or.mp hlocal |>.imp_right not_or.mp
  have hall : i ∈ g.allVariables := (hi.resolve_left hmem).resolve_right hbuffer
  have hroot : g.root i = .text (g.declared i).name := if_neg hlocal
  have hmodify := modifyAll_var ha hg hi hbuffer
  simp only [hname, if_false, hbuffer, decide_false] at hmodify
  rw [modified_apply hg]
  simp only [hmem, if_false, hbuffer, hall, if_true, decide_false, hmodify, Covered]
  split
  · rename_i h
    have hfields := hg.fields i hi
    rw [hroot] at hfields
    have hfix := fixLocal_map ha (hg.noBracket i hi) rfl _ hfields
    have hvar : (g.var i).fieldVars = (g.declared i).fieldVars.map (print []) := rfl
    have htop : (g.declared i).fieldVars.mapTop
          (fun ps => (g.declared i).name ++ print access ps.tail) (print []) =
        (g.declared i).fieldVars.mapTop (print access) (print []) :=
      NamedVars.mapTop_congr _ hfields fun ps ⟨tail, hps, _⟩ => by rw [hps]; rfl
    have hprint : print access [.text (g.declared i).name] = (g.declared i).name := by
      simp [print, Piece.print]
    rw [hvar, hfix, htop, pieces, NamedVar.map, hroot, h.2, hprint]
    simp only [NamedVar.mk.injEq, true_and, NamedVars.mapTop_eq_map_iff, print_eq_iff ha]
  · rw [var, pieces, hroot, NamedVar.map_eq_map_iff]
    simp only [NamedVar.All, print_eq_iff ha]
    exact and_iff_right fun q hq => ⟨_, List.mem_singleton.mp hq⟩

/-- What is printed is right once the names are. -/
theorem output_of_names {var : ℕ → NamedVar (List Char)} {ps : List Printed}
    (hvar : ∀ i, g.Mem i → var i = (g.pieces i).map (print access))
    (hps : ∀ i path, .name i path ∈ ps → g.Mem i) :
    output var ps = print access (g.printedPieces ps) := by
  induction ps with
  | nil => rfl
  | cons p ps ih =>
    have hrest := ih fun i path hmem => hps i path (List.mem_cons_of_mem _ hmem)
    have hpieces : g.printedPieces (p :: ps) = g.printedPieces [p] ++ g.printedPieces ps := by
      simp [printedPieces]
    rw [output, List.flatMap_cons, ← output, hrest, hpieces, print, print, List.flatMap_append]
    congr 1
    cases p with
    | text s => simp [printedPieces, Piece.print]
    | name i path =>
      simp only [printedPieces, List.flatMap_singleton, hvar i (hps i path List.mem_cons_self),
        NamedVar.at?_map]
      cases (g.pieces i).at? path with
      | none => rfl
      | some v =>
        cases v
        rfl

end

/-- **The access stands before every global name, once**, just when every local
variable has its global names in what `FixStructArrays` is called for: the first
fields of an aggregate whose name begins with `l_`. -/
theorem modifyGlobalVariableReferences_prefixed_iff {access : List Char} (ha : Access access)
    (hg : g.WF) :
    g.Prefixed access (modifyGlobalVariableReferences access g.toLists g.var) ↔
      ∀ i, g.Mem i → ¬g.IsGlobal i → g.Covered i := by
  constructor
  · intro h i hi hlocal
    exact (modified_of_not_isGlobal ha hg hi hlocal).mp (h.names i hi)
  · intro h
    have hnames : ∀ i, g.Mem i →
        modifyGlobalVariableReferences access g.toLists g.var i =
          (g.pieces i).map (print access) := by
      intro i hi
      by_cases hglobal : g.IsGlobal i
      · exact modified_of_isGlobal ha hg hi hglobal
      · exact (modified_of_not_isGlobal ha hg hi hglobal).mpr (h i hi hglobal)
    exact ⟨hnames, fun ps hps => output_of_names hnames hps⟩

/-- `struct S g_1; int g_2; struct T l_3[4];` with the item `l_3[g_2]`. -/
def itemised (fieldVars : NamedVars (List Piece)) : Program where
  globalVars := [1, 2]
  allVariables := [1, 2, 3, 4]
  buffers := []
  declared
    | 1 => ⟨"g_1".toList, true, .cons (.mk [.globalName "g_1".toList, .text ".f0".toList] false
        .nil) .nil⟩
    | 2 => ⟨"g_2".toList, false, .nil⟩
    | 3 => ⟨"l_3".toList, true, .nil⟩
    | 4 => ⟨"l_3".toList, true, fieldVars⟩
    | _ => ⟨[], false, .nil⟩

/-- The name of a field of `l_3[g_2]`. -/
def fieldOfItem (field : String) : List Piece :=
  [.text "l_3".toList, .text ['['], .globalName "g_2".toList, .text (']' :: field.toList)]

/-- A field of `l_3[g_2]` that is a struct, with a field. -/
def nestedFields : NamedVars (List Piece) :=
  .cons (.mk (fieldOfItem ".f0") true (.cons (.mk (fieldOfItem ".f0.f0") false .nil) .nil)) .nil

theorem itemised_wf {fieldVars : NamedVars (List Piece)}
    (hfields : fieldVars.All (FieldName (.text "l_3".toList))) (hshape : fieldVars.Shape) :
    (itemised fieldVars).WF where
  nodup_globalVars := by simp [itemised]
  nodup_allVariables := by simp [itemised]
  nodup_buffers := by simp [itemised]
  disjoint := by simp [itemised]
  noBracket := by
    rintro i -
    match i with
    | 0 | 1 | 2 | 3 | 4 | _ + 5 => simp [itemised]
  fields := by
    rintro i -
    match i with
    | 1 =>
      refine ⟨⟨⟨[.text ".f0".toList], rfl, ?_, .inr ?_⟩, trivial⟩, trivial⟩
      · exact List.forall_mem_singleton.mpr ⟨noMark_iff.mpr (by decide), by decide, by decide⟩
      · exact List.forall_mem_singleton.mpr ⟨_, rfl, by decide⟩
    | 4 => exact hfields
    | 0 | 2 | 3 | _ + 5 => exact trivial
  shape := by
    rintro i -
    match i with
    | 1 => exact ⟨nofun, ⟨fun _ => rfl, trivial⟩, trivial⟩
    | 4 => exact ⟨nofun, hshape⟩
    | 0 | 2 | 3 | _ + 5 => exact ⟨fun _ => rfl, trivial⟩

theorem fieldName_fieldOfItem {field : String} (hfield : Plain (']' :: field.toList)) :
    FieldName (.text "l_3".toList) (fieldOfItem field) := by
  refine ⟨[.text ['['], .globalName "g_2".toList, .text (']' :: field.toList)], rfl, ?_,
    .inl ⟨[], _, rfl⟩⟩
  intro q hq
  simp only [List.mem_cons, List.not_mem_nil, or_false] at hq
  rcases hq with rfl | rfl | rfl
  · exact ⟨noMark_iff.mpr (by decide), by decide, by decide⟩
  · exact ⟨['2'], rfl, noMark_iff.mpr (by decide), by decide, by decide⟩
  · exact hfield

theorem access_p4 : Access "p_4->".toList where
  arrow := ⟨"p_4".toList, rfl⟩
  noMark := noMark_iff.mpr (by decide)
  noBracket := by decide
  notGlobal s := by simp
  notLocal s := by simp

/-- A struct without structs in it is handled. -/
theorem modifyGlobalVariableReferences_prefixed_iff_flat :
    let g := itemised (.cons (.mk (fieldOfItem ".f0") false .nil) .nil)
    g.Prefixed "p_4->".toList (modifyGlobalVariableReferences "p_4->".toList g.toLists g.var) := by
  have hfield : Plain (']' :: ".f0".toList) := ⟨noMark_iff.mpr (by decide), by decide, by decide⟩
  have hwf : (itemised (.cons (.mk (fieldOfItem ".f0") false .nil) .nil)).WF :=
    itemised_wf ⟨⟨fieldName_fieldOfItem hfield, trivial⟩, trivial⟩
      ⟨⟨fun _ => rfl, trivial⟩, trivial⟩
  refine (modifyGlobalVariableReferences_prefixed_iff _ access_p4 hwf).mpr ?_
  · intro i _ hlocal
    match i with
    | 1 => exact absurd (.inl (by decide)) hlocal
    | 4 => exact (if_pos (by decide)).mpr ⟨trivial, trivial⟩
    | 0 | 2 | 3 | _ + 5 =>
      rw [Covered]
      split <;> exact trivial

/-- `l_3[g_2].f0.f0` keeps its `g_2`. -/
theorem not_prefixed_nested :
    (itemised nestedFields).WF ∧
      ((modifyGlobalVariableReferences "p_4->".toList (itemised nestedFields).toLists
          (itemised nestedFields).var 4).at? [0, 0]).map NamedVar.name =
        some "l_3[g_2].f0.f0".toList ∧
      ¬(itemised nestedFields).Prefixed "p_4->".toList
        (modifyGlobalVariableReferences "p_4->".toList (itemised nestedFields).toLists
          (itemised nestedFields).var) := by
  have hfield : Plain (']' :: ".f0".toList) := ⟨noMark_iff.mpr (by decide), by decide, by decide⟩
  have hfield' : Plain (']' :: ".f0.f0".toList) :=
    ⟨noMark_iff.mpr (by decide), by decide, by decide⟩
  refine ⟨itemised_wf ⟨⟨fieldName_fieldOfItem hfield,
    ⟨fieldName_fieldOfItem hfield', trivial⟩, trivial⟩, trivial⟩
      ⟨⟨nofun, ⟨fun _ => rfl, trivial⟩, trivial⟩, trivial⟩, by decide, fun h => ?_⟩
  have hname := congrArg (fun v => (v.at? [0, 0]).map NamedVar.name)
    (h.names 4 (.inr (.inl (by decide))))
  exact absurd hname (by decide)

end Program

end Globals

end CLSmith
