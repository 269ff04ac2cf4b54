import Qjs.Bytecode

/-!
# Variables of a function

A name that is used before it is declared is an external variable first. At the end of the function
the external variables that have become local ones are given their new numbers in the bytecode, and
the others move down in the table. The table is worked through in parts of fixed size, each with one
pass over the bytecode.
-/

namespace Qjs

def jsMaxLocalVars : ℕ := 65535

/-- A record of `ext_vars`: the name, and the kind and index of the variable. -/
structure ExtVar where
  name : ℕ
  decl : ℕ
  deriving DecidableEq, Repr, Inhabited

/-- What is read and written of the function that is parsed. -/
structure ParseFunc where
  vars : List ℕ
  argCount : ℕ
  extVars : List ExtVar
  byteCode : List ℕ
  deriving DecidableEq, Repr

/-- `find_var`. -/
def findVar (vars : List ℕ) (name : ℕ) : Option ℕ := vars.findIdx? (· == name)

def cvtVarSizeMax : ℕ := 16

structure ConvertVarEntry where
  newVarIdx : ℕ
  isLocal : Bool
  deriving DecidableEq, Repr

/-- The opcodes that refer to an external variable. -/
def OPCodeEnum.isVarRef : OPCodeEnum → Bool
  | .opGetVarRef | .opPutVarRef | .opGetVarRefNocheck | .opPutVarRefNocheck => true
  | _ => false

def OPCodeEnum.isGetVarRef : OPCodeEnum → Bool
  | .opGetVarRef | .opGetVarRefNocheck => true
  | _ => false

/-- The instruction at `pos`, whose opcode is `op`. -/
def convertInstrAt (varStart : ℕ) (cvtTab : List ConvertVarEntry) (pos : ℕ) (op : OPCodeEnum)
    (code : List ℕ) : List ℕ :=
  if op.isVarRef then
    let varIdx := getU16 code (pos + 1)
    if varStart ≤ varIdx ∧ varIdx < varStart + cvtTab.length then
      match cvtTab[varIdx - varStart]? with
      | some e =>
        let code := putU16 code (pos + 1) e.newVarIdx
        if e.isLocal then
          code.set pos (if op.isGetVarRef then OPCodeEnum.opGetLoc.code else OPCodeEnum.opPutLoc.code)
        else code
      | none => code
    else code
  else code

/-- `convert_ext_vars_to_local_vars_bytecode`, from `pos` on. -/
def convertExtVarsBytecode (varStart : ℕ) (cvtTab : List ConvertVarEntry) :
    ℕ → ℕ → List ℕ → List ℕ
  | 0, _, code => code
  | fuel + 1, pos, code =>
    if pos < code.length then
      let b := getU8 code pos
      let code' :=
        match opcodeOf b with
        | some op => convertInstrAt varStart cvtTab pos op code
        | none => code
      convertExtVarsBytecode varStart cvtTab fuel (pos + opSize b) code'
    else code

/-- The table for the `n` variables from `i` on, `j` variables having stayed external before. -/
def fillCvtTab (vars : List ℕ) (argCount : ℕ) :
    ℕ → ℕ → ℕ → List ExtVar → List ConvertVarEntry × List ExtVar × ℕ
  | 0, _, j, extVars => ([], extVars, j)
  | n + 1, i, j, extVars =>
    let v := extVars.getD i default
    match (findVar vars v.name).filter (argCount ≤ ·) with
    | some varIdx =>
      let (tab, extVars, j) := fillCvtTab vars argCount n (i + 1) j extVars
      (⟨varIdx - argCount, true⟩ :: tab, extVars, j)
    | none =>
      let (tab, extVars, j') := fillCvtTab vars argCount n (i + 1) (j + 1) (extVars.set j v)
      (⟨j, false⟩ :: tab, extVars, j')

/-- The parts of the table from `i0` on. -/
def convertParts (vars : List ℕ) (argCount extVarsLen : ℕ) :
    ℕ → ℕ → ℕ → List ExtVar → List ℕ → List ExtVar × ℕ × List ℕ
  | 0, _, j, extVars, code => (extVars, j, code)
  | fuel + 1, i0, j, extVars, code =>
    if i0 < extVarsLen then
      let l := min (extVarsLen - i0) cvtVarSizeMax
      let (tab, extVars, j) := fillCvtTab vars argCount l i0 j extVars
      let code := if j ≠ i0 + l then convertExtVarsBytecode i0 tab code.length 0 code else code
      convertParts vars argCount extVarsLen fuel (i0 + cvtVarSizeMax) j extVars code
    else (extVars, j, code)

/-- `convert_ext_vars_to_local_vars`. -/
def convertExtVarsToLocalVars (f : ParseFunc) : ParseFunc :=
  if f.vars.length = 0 ∨ f.extVars.length = 0 then f
  else
    let (extVars, j, code) :=
      convertParts f.vars f.argCount f.extVars.length f.extVars.length 0 0 f.extVars f.byteCode
    { f with extVars := extVars.take j, byteCode := code }

end Qjs
