import LuaAnalysis.Inference.Calls

/-!
Which values can be used where a type is expected. What is not known goes with everything, so that a
lack of knowledge is never a mismatch.
-/

namespace LuaAnalysis.Inference

open Document LuaAnalysis.Types Scope Syntax Workspace

/-- Types that go with every other type. -/
def isWild : Ty → Bool
  | .unknown | .any | .tpl _ | .self => true
  | _ => false

/-- A constant is of the type of all such constants, and every integer is a number. -/
def constFits : Ty → Ty → Bool
  | .boolConst _, .boolean => true
  | .intConst _, .integer => true
  | .intConst _, .number => true
  | .integer, .number => true
  | .strConst _, .string => true
  | _, _ => false

def isTableLike : Ty → Bool
  | .table | .tableConst _ | .array _ | .tuple _ | .object .. | .ref _ | .generic .. => true
  | _ => false

variable (p : Project) (e : Engine)

def enumValues (name : String) : Search (List Ty) :=
  return (← findMembers p e (.ref name)).map (·.type)

/-- Whether an enum accepts a value. One that is no constant may be any of those of its type. -/
def enumAccepts (name : String) (value : Ty) : Search Bool := do
  if value == .ref name then return true
  let values ← enumValues p e name
  if values.any (· == value) then return true
  match (p.index.typeDecl? name).bind (·.enumBase?) with
  | some base => e.isSubtype value base
  | none => if value.isLiteral then return false else
      values.anyM fun member => e.isSubtype member value

def enumFits (name : String) (sup : Ty) : Search Bool := do
  let values ← enumValues p e name
  if values.isEmpty then return false
  values.allM fun value => e.isSubtype value sup

def allSubtypes (pairs : List (Ty × Ty)) : Search Bool :=
  pairs.allM fun (sub, sup) => e.isSubtype sub sup

def tableFitsObject (sub : Ty) (fields : List (MemberKey × Ty)) : Search Bool :=
  fields.allM fun (key, expected) => do
    match ← findMember p e sub key with
    | some info => e.isSubtype info.type expected
    | none => return expected.isOptional

def tableFitsArray (sub item : Ty) : Search Bool := do
  (← findMembers p e sub).allM fun info =>
    if info.key.name?.isNone then e.isSubtype info.type item else return false

def arrayFitsTable (item : Ty) (params : List Ty) : Search Bool := do
  let keyFits ← match params.head? with
    | some key => e.isSubtype .integer key
    | none => pure true
  if !keyFits then return false
  match params[1]? with
  | some value => e.isSubtype item value
  | none => return true

def shapeFits (sub sup : Ty) : Search Bool :=
  match sub, sup with
  | .ref name, .ref superName => inherits p name superName
  | .generic base _, .ref superName => inherits p base superName
  | .generic base params, .generic superBase superParams =>
    if base == superBase then allSubtypes e (params.zip superParams) else inherits p base superBase
  | sub, .table => return isTableLike sub
  | .table, .ref _ | .table, .generic _ _ | .table, .object _ _ | .table, .array _ => return true
  | .tableConst _, .ref _ | .tableConst _, .generic _ _ => return true
  | .tableConst _, .object fields _ => tableFitsObject p e sub fields
  | .tableConst _, .array item => tableFitsArray p e sub item
  | .array item, .array superItem => e.isSubtype item superItem
  | .tuple items, .array item => allSubtypes e (items.map (·, item))
  | .tuple items, .tuple superItems =>
    if superItems.length ≤ items.length then allSubtypes e (items.zip superItems) else return false
  | .array item, .generic base params => if base == "table" then arrayFitsTable e item params
      else return false
  | .object _ _, .object _ _ | .ref _, .object _ _ => return true
  | sub, .function | sub, .func .. => do
    match sub with
    | .function | .func .. | .signature _ => return true
    | .ref _ => return !(← findCallables p e sub).isEmpty
    | _ => return false
  | _, _ => return false

def resolvedFits (sub sup : Ty) : Search Bool :=
  if sub == sup || sup.isUnknown || sub.isUnknown then return true
  else
    match sub, sup with
    | .union _, sup => e.isSubtype sub sup
    | sub, .union members => members.anyM fun m => e.isSubtype sub m
    | sub, sup => do
      if constFits sub sup then return true
      match sup with
      | .ref name => if p.isEnum name then return ← enumAccepts p e name sub
      | _ => pure ()
      match sub with
      | .ref name => if p.isEnum name then return ← enumFits p e name sup
      | _ => pure ()
      shapeFits p e sub sup

def expandAlias (t : Ty) : Search Ty := if isAlias p t then resolveAlias p t else return t

def fits (sub sup : Ty) : Search Bool :=
  if sub == sup || isWild sub || isWild sup || sub.isNever then return true
  else if sub.isMulti then e.isSubtype sub.firstValue sup
  else if sup.isMulti then e.isSubtype sub sup.firstValue
  else
    match sub with
    | .union members => members.allM fun m => e.isSubtype m sup
    | _ => do
      let sup ← expandAlias p sup
      let sub ← expandAlias p sub
      resolvedFits p e sub sup

def isSubtype (sub sup : Ty) : Search Bool := Search.guarded true (fits p e sub sup)

end LuaAnalysis.Inference
