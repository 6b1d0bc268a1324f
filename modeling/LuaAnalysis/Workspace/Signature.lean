import LuaAnalysis.Types.Multi
import LuaAnalysis.Types.Union

namespace LuaAnalysis.Workspace

open LuaAnalysis.Types

structure DocParam where
  name : String
  type : Ty
  nullable : Bool
  description? : Option String
deriving Repr, Inhabited

def DocParam.fullType (p : DocParam) : Ty := if p.nullable then p.type.nullable else p.type

structure DocReturn where
  name? : Option String
  type : Ty
  description? : Option String
deriving Repr, Inhabited

structure Signature where
  /-- The generic parameters, with what they are bounded by. -/
  generics : List (String × Option Ty) := []
  /-- The names of the parameters; the one for all further arguments is `...`. -/
  params : List String := []
  paramDocs : List DocParam := []
  returnDocs : List DocReturn := []
  overloads : List FuncType := []
  /-- Defined with a colon, so that the receiver comes before the first parameter. -/
  isColon : Bool := false
  isAsync : Bool := false
  nodiscard : Bool := false
  description? : Option String := none
deriving Repr, Inhabited

namespace Signature

def paramType? (s : Signature) (name : String) : Option Ty :=
  (s.paramDocs.find? fun p => p.name == name).map (·.fullType)

def hasReturnDocs (s : Signature) : Bool := !s.returnDocs.isEmpty

def docReturnType (s : Signature) : Ty := .ofReturns (s.returnDocs.map (·.type))

def genericNames (s : Signature) : List String := s.generics.map (·.1)

def toFunc (s : Signature) (ret : Ty) : FuncType where
  isAsync := s.isAsync
  isColon := s.isColon
  params := s.params.map fun name => (name, s.paramType? name)
  ret := ret

end Signature

end LuaAnalysis.Workspace
