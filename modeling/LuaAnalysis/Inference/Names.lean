import LuaAnalysis.Inference.Search
import LuaAnalysis.Types.Substitution

/-!
What follows from the names of types: aliases, inheritance and the parameters of generic classes.
Each step goes one level deeper, so that fuel for the greatest depth is enough.
-/

namespace LuaAnalysis.Inference

open Document LuaAnalysis.Types Workspace

variable (p : Project)

def aliasStep? (t : Ty) : Option (String × Ty) :=
  match t with
  | .ref name => do
    let decl ← p.index.typeDecl? name
    pure (name, ← decl.aliasOrigin?)
  | .generic base params => do
    let decl ← p.index.typeDecl? base
    let origin ← decl.aliasOrigin?
    pure (base, origin.instantiate (.ofParams decl.genericNames params))
  | _ => none

/-- Follows aliases at the head of a type with fuel for some steps. -/
def resolveAliasFor : Nat → Ty → Search Ty
  | 0, _ => Search.outOfFuel .unknown
  | fuel + 1, t =>
    match aliasStep? p t with
    | none => return t
    | some (name, origin) => do
      if (← get).expanding.contains name then return .unknown
      modify fun s => { s with expanding := name :: s.expanding }
      let resolved ← Search.guarded .unknown (resolveAliasFor fuel origin)
      modify fun s => { s with expanding := s.expanding.erase name }
      return resolved

/-- Follows aliases at the head of a type. A cycle comes to `unknown`. -/
def resolveAlias (t : Ty) : Search Ty := resolveAliasFor p (maxDepth + 1) t

def isAlias : Ty → Bool
  | .ref name => p.isAliasName name
  | .generic base _ => p.isAliasName base
  | _ => false

def className? : Ty → Option String
  | .ref name => some name
  | .generic base _ => some base
  | _ => none

def superNames (name : String) : List String := (p.index.supers name).filterMap className?

def inheritsFor : Nat → String → String → Search Bool
  | 0, _, _ => Search.outOfFuel false
  | fuel + 1, sub, sup =>
    if sub == sup then return true
    else (superNames p sub).anyM fun name => Search.guarded false (inheritsFor fuel name sup)

def inherits (sub sup : String) : Search Bool := inheritsFor p (maxDepth + 1) sub sup

def genericParamsFor : Nat → Ty → String → Search (Option (List Ty))
  | 0, _, _ => Search.outOfFuel none
  | fuel + 1, actual, base =>
    let climb (name : String) : Search (Option (List Ty)) :=
      Search.guarded none ((p.index.supers name).findSomeM? fun super =>
        genericParamsFor fuel super base)
    match actual with
    | .generic name params => if name == base then return some params else climb name
    | .ref name => climb name
    | _ => return none

/-- The parameters of a type, seen as the generic class `base`, which may be one that it extends. -/
def genericParamsAs (actual : Ty) (base : String) : Search (Option (List Ty)) :=
  genericParamsFor p (maxDepth + 1) actual base

end LuaAnalysis.Inference
