import LuaAnalysis.Types.Multi
import LuaAnalysis.Types.Union

namespace LuaAnalysis.Types

/-- What templates are bound to. The first binding of a name counts. -/
structure Substitution where
  bindings : List (String × Ty) := []
  self? : Option Ty := none
deriving Repr, Inhabited

namespace Substitution

def empty : Substitution := {}

def isEmpty (s : Substitution) : Bool := s.bindings.isEmpty && s.self?.isNone

def get? (s : Substitution) (name : String) : Option Ty :=
  (s.bindings.find? (·.1 == name)).map (·.2)

def contains (s : Substitution) (name : String) : Bool := (s.get? name).isSome

def insert (s : Substitution) (name : String) (t : Ty) : Substitution :=
  { s with bindings := (name, t) :: s.bindings.filter (·.1 != name) }

/-- Binds names to types in order. A name without a type stays free. -/
def ofParams (names : List String) (args : List Ty) : Substitution :=
  (names.zip args).foldl (fun s (n, t) => s.insert n t) empty

end Substitution

namespace Ty

mutual

def subst (s : Substitution) (t : Ty) : Ty :=
  match t with
  | .tpl name => (s.get? name).getD (.tpl name)
  | .self => s.self?.getD .self
  | .array item => .array (subst s item)
  | .tuple items => .tuple (substList s items)
  | .object fields access => .object (substFields s fields) (substAccess s access)
  | .union members => unionOf (substList s members)
  | .generic base params => .generic base (substList s params)
  | .func isAsync isColon params ret => .func isAsync isColon (substParams s params) (subst s ret)
  | .multi items => .multi (flattenMulti (substList s items))
  | .variadic item =>
    let item := subst s item
    -- a template for any number of values may be bound to a list of them
    if item.isMulti then item else .variadic item
  | t => t
termination_by structural t

def substList (s : Substitution) (ts : List Ty) : List Ty :=
  match ts with
  | [] => []
  | t :: ts => subst s t :: substList s ts
termination_by structural ts

def substFields (s : Substitution) (fs : List (MemberKey × Ty)) : List (MemberKey × Ty) :=
  match fs with
  | [] => []
  | (k, t) :: fs => (k, subst s t) :: substFields s fs
termination_by structural fs

def substAccess (s : Substitution) (as : List (Ty × Ty)) : List (Ty × Ty) :=
  match as with
  | [] => []
  | (k, v) :: as => (subst s k, subst s v) :: substAccess s as
termination_by structural as

def substParams (s : Substitution) (ps : List (String × Option Ty)) : List (String × Option Ty) :=
  match ps with
  | [] => []
  | (n, none) :: ps => (n, none) :: substParams s ps
  | (n, some t) :: ps => (n, some (subst s t)) :: substParams s ps
termination_by structural ps

end

def instantiate (t : Ty) (s : Substitution) : Ty := if s.isEmpty then t else subst s t

end Ty

def FuncType.instantiate (f : FuncType) (s : Substitution) : FuncType :=
  { f with
    params := f.params.map fun (n, t) => (n, t.map (·.instantiate s))
    ret := f.ret.instantiate s }

end LuaAnalysis.Types
