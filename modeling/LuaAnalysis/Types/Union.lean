import LuaAnalysis.Types.Ty

/-!
Unions of types, and types with some of their values taken away. A union that is built here is flat,
has no member twice, neither `unknown` nor `never` in it, and never `boolean` beside a boolean
constant.
-/

namespace LuaAnalysis.Types

namespace Ty

mutual

/-- The alternatives of a type: those of the members of a union, at any depth, or else the type. -/
def alternatives (t : Ty) : List Ty :=
  match t with
  | .union members => allAlternatives members
  | t => [t]
termination_by structural t

def allAlternatives (ts : List Ty) : List Ty :=
  match ts with
  | [] => []
  | t :: ts => alternatives t ++ allAlternatives ts
termination_by structural ts

end

/-- Drops every type that was listed before; `seen` are those left out of account. -/
def dedupFrom (seen : List Ty) : List Ty → List Ty
  | [] => []
  | t :: ts => if seen.any (beq t) then dedupFrom seen ts else t :: dedupFrom (t :: seen) ts

def dedup (ts : List Ty) : List Ty := dedupFrom [] ts

def isBoolConst : Ty → Bool
  | .boolConst _ => true
  | _ => false

/-- Takes boolean constants into `boolean`, if it is listed or if both of them are. -/
def mergeBooleans (ts : List Ty) : List Ty :=
  if ts.any (beq .boolean) then ts.filter fun t => !t.isBoolConst
  else if ts.any (beq (.boolConst true)) && ts.any (beq (.boolConst false)) then
    ts.filter (fun t => !t.isBoolConst) ++ [.boolean]
  else ts

def ofMembers : List Ty → Ty
  | [] => .unknown
  | [t] => t
  | ts => .union ts

/-- The union of types. Nothing to unite gives `unknown`. -/
def unionOf (ts : List Ty) : Ty :=
  ofMembers
    (mergeBooleans (dedup ((allAlternatives ts).filter fun t => !t.isUnknown && !t.isNever)))

def union2 (a b : Ty) : Ty := unionOf [a, b]

def nullable (t : Ty) : Ty := union2 t .nil

/-- After a removal, nothing left means no value rather than no knowledge. -/
def orNever : Ty → Ty
  | .unknown => .never
  | t => t

def remove (source removed : Ty) : Ty :=
  match source with
  | .union members => (unionOf (members.filter fun t => !beq t removed)).orNever
  | t => if beq t removed then .never else t

mutual

def truthy (t : Ty) : Ty :=
  match t with
  | .nil | .boolConst false => .never
  | .boolean => .boolConst true
  | .union members => (unionOf (truthyList members)).orNever
  | t => t
termination_by structural t

def truthyList (ts : List Ty) : List Ty :=
  match ts with
  | [] => []
  | t :: ts => truthy t :: truthyList ts
termination_by structural ts

end

mutual

/-- The values of a type that count as false: `nil` and `false`. -/
def falsy (t : Ty) : Ty :=
  match t with
  | .nil => .nil
  | .boolConst false => .boolConst false
  | .boolean => .boolConst false
  | .unknown | .any => .nil
  | .union members => (unionOf ((falsyList members).filter fun t => !t.isNever)).orNever
  | _ => .never
termination_by structural t

def falsyList (ts : List Ty) : List Ty :=
  match ts with
  | [] => []
  | t :: ts => falsy t :: falsyList ts
termination_by structural ts

end

mutual

def widen (t : Ty) : Ty :=
  match t with
  | .boolConst _ => .boolean
  | .intConst _ => .integer
  | .strConst _ => .string
  | .union members => unionOf (widenList members)
  | t => t
termination_by structural t

def widenList (ts : List Ty) : List Ty :=
  match ts with
  | [] => []
  | t :: ts => widen t :: widenList ts
termination_by structural ts

end

end Ty

end LuaAnalysis.Types
