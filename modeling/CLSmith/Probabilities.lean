import CLSmith.StringUtils
import Mathlib.Logic.Function.Basic
/-!
# Probabilities and their configuration file

The single and group probabilities of the generator with their names, the
text `dump_actual_probabilities` writes of them, and the parser of such a
file, which validates each group while it overwrites it. Which elements there
are does not depend on the options; their values do.
-/

namespace CLSmith

open Common CString StringUtils

/-- The names the program uses. -/
inductive ProbName
  | pMoreStructUnionProb | pBitFieldsCreationProb | pBitFieldsSignedProb
  | pBitFieldInNormalStructProb | pScalarFieldInFullBitFieldsProb | pExhaustiveBitFieldsProb
  | pSafeOpsSignedProb | pSelectDerefPointerProb | pRegularVolatileProb | pRegularConstProb
  | pStricterConstProb | pLooserConstProb | pFieldVolatileProb | pFieldConstProb
  | pStdUnaryFuncProb | pShiftByNonConstantProb | pPointerAsLTypeProb | pStructAsLTypeProb
  | pUnionAsLTypeProb | pNewArrayVariableProb | pAccessOnceVariableProb | pInlineFunctionProb
  | pBuiltinFunctionProb | pStatementProb | pAssignProb | pBlockProb | pForProb | pIfElseProb
  | pInvokeProb | pReturnProb | pContinueProb | pBreakProb | pGotoProb | pArrayOpProb
  | pCLStatementProb | pAssignOpsProb | pSimpleAssignProb | pMulAssignProb | pDivAssignProb
  | pRemAssignProb | pAddAssignProb | pSubAssignProb | pLShiftAssignProb | pRShiftAssignProb
  | pBitAndAssignProb | pBitXorAssignProb | pBitOrAssignProb | pPreIncrProb | pPreDecrProb
  | pPostIncrProb | pPostDecrProb | pUnaryOpsProb | pPlusProb | pMinusProb | pNotProb
  | pBitNotProb | pBinaryOpsProb | pAddProb | pSubProb | pMulProb | pDivProb | pModProb
  | pCmpGtProb | pCmpLtProb | pCmpGeProb | pCmpLeProb | pCmpEqProb | pCmpNeProb | pAndProb
  | pOrProb | pBitXorProb | pBitAndProb | pBitOrProb | pRShiftProb | pLShiftProb
  | pSimpleTypesProb | pVoidProb | pCharProb | pIntProb | pShortProb | pLongProb
  | pLongLongProb | pUCharProb | pUIntProb | pUShortProb | pULongProb | pULongLongProb
  | pSafeOpsSizeProb | pInt8Prob | pInt16Prob | pInt32Prob | pInt64Prob
deriving DecidableEq

/-- A single probability, or a group with its members; an equal group says only
which of them are allowed. -/
inductive ProbElem
  | single (pname : ProbName)
  | group (isEqual : Bool) (pname : ProbName) (probs : List ProbName)
deriving DecidableEq

namespace ProbElem

/-- The names an element has a value for. -/
def members : ProbElem → List ProbName
  | single pname => [pname]
  | group _ _ probs => probs

/-- The name the element is found by. -/
def key : ProbElem → ProbName
  | single pname => pname
  | group _ pname _ => pname

end ProbElem

/-- **The probabilities**: `val_` of the `SingleProbElem` of each name. The groups
have no value of their own. -/
structure Probabilities where
  val : ProbName → ℤ

namespace Probabilities

/-! ## Names and elements -/

/-- The names in a configuration file, as `set_single_name` maps them. -/
def names : List (ProbName × List Char) :=
  [(.pMoreStructUnionProb, "more_struct_union_type_prob".toList),
    (.pBitFieldsCreationProb, "bitfields_creation_prob".toList),
    (.pBitFieldInNormalStructProb, "bitfield_in_normal_struct_prob".toList),
    (.pScalarFieldInFullBitFieldsProb, "scalar_field_in_full_bitfields_struct_prob".toList),
    (.pExhaustiveBitFieldsProb, "exhaustive_bitfield_prob".toList),
    (.pBitFieldsSignedProb, "bitfields_signed_prob".toList),
    (.pSafeOpsSignedProb, "safe_ops_signed_prob".toList),
    (.pSelectDerefPointerProb, "select_deref_pointer_prob".toList),
    (.pRegularVolatileProb, "regular_volatile_prob".toList),
    (.pRegularConstProb, "regular_const_prob".toList),
    (.pStricterConstProb, "stricter_const_prob".toList),
    (.pLooserConstProb, "looser_const_prob".toList),
    (.pFieldVolatileProb, "field_volatile_prob".toList),
    (.pFieldConstProb, "field_const_prob".toList),
    (.pStdUnaryFuncProb, "std_unary_func_prob".toList),
    (.pShiftByNonConstantProb, "shift_by_non_constant_prob".toList),
    (.pPointerAsLTypeProb, "pointer_as_ltype_prob".toList),
    (.pStructAsLTypeProb, "struct_as_ltype_prob".toList),
    (.pUnionAsLTypeProb, "union_as_ltype_prob".toList),
    (.pNewArrayVariableProb, "new_array_var_prob".toList),
    (.pAccessOnceVariableProb, "access_once_var_prob".toList),
    (.pInlineFunctionProb, "inline_function_prob".toList),
    (.pBuiltinFunctionProb, "builtin_function_prob".toList),
    (.pStatementProb, "statement_prob".toList),
    (.pAssignOpsProb, "assign_ops_prob".toList),
    (.pUnaryOpsProb, "assign_unary_ops_prob".toList),
    (.pBinaryOpsProb, "assign_binary_ops_prob".toList),
    (.pSimpleTypesProb, "simple_types_prob".toList),
    (.pSafeOpsSizeProb, "safe_ops_size_prob".toList),
    (.pBlockProb, "statement_block_prob".toList),
    (.pIfElseProb, "statement_ifelse_prob".toList),
    (.pForProb, "statement_for_prob".toList),
    (.pReturnProb, "statement_return_prob".toList),
    (.pContinueProb, "statement_continue_prob".toList),
    (.pBreakProb, "statement_break_prob".toList),
    (.pGotoProb, "statement_goto_prob".toList),
    (.pArrayOpProb, "statement_arrayop_prob".toList),
    (.pCLStatementProb, "statement_clstatement_prob".toList),
    (.pAssignProb, "statement_assign_prob".toList),
    (.pPlusProb, "unary_plus_prob".toList),
    (.pMinusProb, "unary_minus_prob".toList),
    (.pNotProb, "unary_not_prob".toList),
    (.pBitNotProb, "unary_bit_not_prob".toList),
    (.pAddProb, "binary_add_prob".toList),
    (.pSubProb, "binary_sub_prob".toList),
    (.pMulProb, "binary_mul_prob".toList),
    (.pDivProb, "binary_div_prob".toList),
    (.pModProb, "binary_mod_prob".toList),
    (.pCmpGtProb, "binary_gt_prob".toList),
    (.pCmpLtProb, "binary_lt_prob".toList),
    (.pCmpGeProb, "binary_ge_prob".toList),
    (.pCmpLeProb, "binary_le_prob".toList),
    (.pCmpEqProb, "binary_eq_prob".toList),
    (.pCmpNeProb, "binary_ne_prob".toList),
    (.pAndProb, "binary_and_prob".toList),
    (.pOrProb, "binary_or_prob".toList),
    (.pBitXorProb, "binary_bit_xor_prob".toList),
    (.pBitAndProb, "binary_bit_and_prob".toList),
    (.pBitOrProb, "binary_bit_or_prob".toList),
    (.pRShiftProb, "binary_bit_rshift_prob".toList),
    (.pLShiftProb, "binary_bit_lshift_prob".toList),
    (.pVoidProb, "void_prob".toList),
    (.pCharProb, "char_prob".toList),
    (.pIntProb, "int_prob".toList),
    (.pShortProb, "short_prob".toList),
    (.pLongProb, "long_prob".toList),
    (.pULongProb, "ulong_prob".toList),
    (.pUCharProb, "uchar_prob".toList),
    (.pUIntProb, "uint_prob".toList),
    (.pUShortProb, "ushort_prob".toList),
    (.pLongLongProb, "long_long_prob".toList),
    (.pULongLongProb, "ulong_long_prob".toList),
    (.pInt8Prob, "safe_ops_size_int8".toList),
    (.pInt16Prob, "safe_ops_size_int16".toList),
    (.pInt32Prob, "safe_ops_size_int32".toList),
    (.pInt64Prob, "safe_ops_size_int64".toList)]

/-- `probabilities_`, in the order of its keys; the members of a group in the
order of theirs. -/
def layout : List ProbElem :=
  [.single .pMoreStructUnionProb, .single .pBitFieldsCreationProb,
    .single .pBitFieldsSignedProb, .single .pBitFieldInNormalStructProb,
    .single .pScalarFieldInFullBitFieldsProb, .single .pExhaustiveBitFieldsProb,
    .single .pSafeOpsSignedProb, .single .pSelectDerefPointerProb,
    .single .pRegularVolatileProb, .single .pRegularConstProb, .single .pStricterConstProb,
    .single .pLooserConstProb, .single .pFieldVolatileProb, .single .pFieldConstProb,
    .single .pStdUnaryFuncProb, .single .pShiftByNonConstantProb, .single .pPointerAsLTypeProb,
    .single .pStructAsLTypeProb, .single .pUnionAsLTypeProb, .single .pNewArrayVariableProb,
    .single .pAccessOnceVariableProb, .single .pInlineFunctionProb,
    .single .pBuiltinFunctionProb,
    .group false .pStatementProb
      [.pAssignProb, .pBlockProb, .pForProb, .pIfElseProb, .pReturnProb, .pContinueProb,
       .pBreakProb, .pGotoProb, .pArrayOpProb, .pCLStatementProb],
    .group true .pUnaryOpsProb
      [.pPlusProb, .pMinusProb, .pNotProb, .pBitNotProb],
    .group true .pBinaryOpsProb
      [.pAddProb, .pSubProb, .pMulProb, .pDivProb, .pModProb, .pCmpGtProb, .pCmpLtProb,
       .pCmpGeProb, .pCmpLeProb, .pCmpEqProb, .pCmpNeProb, .pAndProb, .pOrProb, .pBitXorProb,
       .pBitAndProb, .pBitOrProb, .pRShiftProb, .pLShiftProb],
    .group true .pSimpleTypesProb
      [.pVoidProb, .pCharProb, .pIntProb, .pShortProb, .pLongProb, .pLongLongProb, .pUCharProb,
       .pUIntProb, .pUShortProb, .pULongProb, .pULongLongProb],
    .group true .pSafeOpsSizeProb
      [.pInt8Prob, .pInt16Prob, .pInt32Prob, .pInt64Prob]]

/-- `get_pname`, which asserts that the name is known. -/
def getPname (sname : List Char) : Option ProbName :=
  (names.find? fun x => decide (x.2 = sname)).map (·.1)

/-- `get_sname`. -/
def getSname (pname : ProbName) : Option (List Char) :=
  (names.find? fun x => decide (x.1 = pname)).map (·.2)

/-- `probabilities_[pname]`, which is asserted to be there. -/
def elem (pname : ProbName) : Option ProbElem := layout.find? fun e => decide (e.key = pname)

variable (σ : Probabilities)

/-! ## Writing -/

/-- A number as an output stream prints it. -/
def printInt : ℤ → List Char
  | .ofNat n => decimal n
  | .negSucc n => '-' :: decimal (n + 1)

/-- `SingleProbElem::dump_val`. -/
def dumpSingle (pname : ProbName) : Option (List Char) :=
  (getSname pname).map fun sname => sname ++ '=' :: printInt (σ.val pname)

/-- The loop of `GroupProbElem::dump_val`, which asserts that there is a member. -/
def dumpMembers : List ProbName → Option (List Char)
  | [] => none
  | [p] => σ.dumpSingle p
  | p :: ps => do
    let x ← σ.dumpSingle p
    let xs ← dumpMembers ps
    some (x ++ ',' :: xs)

/-- The delimiters of a group. -/
def openDelim (isEqual : Bool) : Char := if isEqual then '(' else '['

def closeDelim (isEqual : Bool) : Char := if isEqual then ')' else ']'

/-- `dump_val`. -/
def dumpVal : ProbElem → Option (List Char)
  | .single pname => σ.dumpSingle pname
  | .group isEqual pname probs => do
    let sname ← getSname pname
    let xs ← σ.dumpMembers probs
    some (openDelim isEqual :: (sname ++ ',' :: xs ++ [closeDelim isEqual]))

/-- The loop of `dump_actual_probabilities`. -/
def dumpElems : List ProbElem → Option (List Char)
  | [] => some []
  | e :: es => do
    let x ← σ.dumpVal e
    let xs ← dumpElems es
    some (x ++ '\n' :: '\n' :: xs)

/-- **`dump_actual_probabilities`**: the text of the file. The seed is in a comment,
which is not read back. -/
def dumpActualProbabilities (seed : ℕ) : Option (List Char) :=
  (σ.dumpElems layout).map fun xs => "# Seed: ".toList ++ decimal seed ++ '\n' :: '\n' :: xs

/-! ## Reading -/

/-- `SingleProbElem::set_prob` of the element of that name, with its assertions. -/
def setSingle (pname : ProbName) (val : ℤ) : Option Probabilities :=
  if val ≤ 100 ∧ -1 ≤ val ∧ (pname = .pVoidProb → val = 0) then
    some (if 0 ≤ val then ⟨Function.update σ.val pname val⟩ else σ)
  else none

/-- `set_prob`. -/
def setProb (e : ProbElem) (pname : ProbName) (val : ℤ) : Option Probabilities :=
  if pname ∈ e.members then σ.setSingle pname val else none

/-- `parse_single_elem`, with the value read. -/
def parseSingleElem (isEqual : Bool) (e : ProbElem) (line : List Char) :
    Option (Probabilities × ℤ) := do
  match ← splitString line '=' with
  | [sname, text] =>
    let val ← str2int text
    if (if isEqual then val = 0 ∨ val = 1 else 0 ≤ val ∧ val ≤ 100) then
      let σ ← σ.setProb e (← getPname sname) val
      some (σ, val)
    else none
  | _ => none

/-- The loop of `setup_group_probabilities`: the values so far, whether all
are zero, and whether there is a valid maximum. -/
def setupLoop (isEqual : Bool) (e : ProbElem) :
    List (List Char) → List ℤ → Bool → Bool → Probabilities → Option (Probabilities × Bool × Bool)
  | [], _, allZero, validMaxValue, σ => some (σ, allZero, validMaxValue)
  | line :: lines, vals, allZero, validMaxValue, σ => do
    let (σ, val) ← σ.parseSingleElem isEqual e line
    if isEqual then
      if val = 0 ∨ val = 1 then setupLoop isEqual e lines vals (allZero && val != 1) true σ
      else none
    else if ¬ (0 ≤ val ∧ val ≤ 100) ∨ (0 < val ∧ val ∈ vals) then none
    else setupLoop isEqual e lines (val :: vals) false (validMaxValue || val == 100) σ

/-- `setup_group_probabilities`. -/
def setupGroupProbabilities (isEqual : Bool) : List (List Char) → Option Probabilities
  | sname :: line :: lines => do
    let e ← elem (← getPname sname)
    let (σ, allZero, validMaxValue) ← setupLoop isEqual e (line :: lines) [] true false σ
    if allZero || !validMaxValue then none else some σ
  | _ => none

/-- `parse_group_probabilities`, with `error_msg` where it fails. -/
def parseGroupProbabilities (isEqual : Bool) (line : List Char) :
    Option (Probabilities × Option String) := do
  let s ← getSubstring line (openDelim isEqual) (closeDelim isEqual)
  if s = [] then some (σ, some "empty group probabilities!")
  else
    let elems ← splitString s ','
    if elems.length ≤ 1 then some (σ, some "invalid group probabilities format!")
    else (σ.setupGroupProbabilities isEqual elems).map fun σ => (σ, none)

/-- `parse_single_probability`. -/
def parseSingleProbability (line : List Char) : Option (Probabilities × Option String) := do
  match ← splitString line '=' with
  | [sname, text] =>
    let val ← str2int text
    if val ≤ 100 ∧ -1 ≤ val then
      let pname ← getPname sname
      let σ ← σ.setProb (← elem pname) pname val
      some (σ, none)
    else none
  | _ => none

/-- `parse_line`. -/
def parseLine (line : List Char) : Option (Probabilities × Option String) :=
  let c := firstNonspaceChar line
  if c = '\x00' then none
  else if c = '#' then some (σ, none)
  else if c = openDelim false then σ.parseGroupProbabilities false line
  else if c = openDelim true then σ.parseGroupProbabilities true line
  else σ.parseSingleProbability line

/-- The lines `getline` gives until the end of the file. -/
def lines : List Char → List (List Char)
  | [] => [[]]
  | c :: s =>
    if c = '\n' then [] :: lines s
    else match lines s with
      | [] => [[c]]
      | l :: ls => (c :: l) :: ls

/-- The loop of `parse_configuration`. -/
def parseLines : List (List Char) → Probabilities → Option (Probabilities × Option String)
  | [], σ => some (σ, none)
  | line :: ls, σ =>
    if emptyLine line then parseLines ls σ
    else match σ.parseLine line with
      | none => none
      | some (σ, some msg) => some (σ, some msg)
      | some (σ, none) => parseLines ls σ

/-- **`parse_configuration`** of a file that may not be there; without an error
message it returns true, and a failed assertion ends the program. -/
def parseConfiguration (conf : Option (List Char)) : Option (Probabilities × Option String) :=
  match conf with
  | none => some (σ, some "fail to open probabilities configuration file!")
  | some text => parseLines (lines text) σ

/-! ## Admissible values -/

/-- What the setters and `GroupProbElem::initialize` can produce of a group. -/
def GroupOk (isEqual : Bool) (probs : List ProbName) : Prop :=
  if isEqual then (∀ p ∈ probs, σ.val p = 0 ∨ σ.val p = 1) ∧ ∃ p ∈ probs, σ.val p = 1
  else (∀ p ∈ probs, 0 ≤ σ.val p ∧ σ.val p ≤ 100) ∧ (∃ p ∈ probs, σ.val p = 100) ∧
    ∀ p ∈ probs, ∀ q ∈ probs, 0 < σ.val p → σ.val p = σ.val q → p = q

instance (isEqual : Bool) (probs : List ProbName) : Decidable (σ.GroupOk isEqual probs) :=
  inferInstanceAs (Decidable (if isEqual then _ else _))

/-- **The probabilities are admissible**: what is set by itself is a percentage, and
the members of a group are what its filter needs. -/
structure Admissible : Prop where
  single : ∀ p, .single p ∈ layout → 0 ≤ σ.val p ∧ σ.val p ≤ 100
  group : ∀ isEqual pname probs, .group isEqual pname probs ∈ layout → σ.GroupOk isEqual probs
  void : σ.val .pVoidProb = 0

end Probabilities

end CLSmith
