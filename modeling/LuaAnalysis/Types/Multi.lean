import LuaAnalysis.Types.Ty

namespace LuaAnalysis.Types

namespace Ty

mutual

def valueAt? (t : Ty) (index : Nat) : Option Ty :=
  match t with
  | .variadic item => some item
  | .multi items => listValueAt? items index
  | t => if index = 0 then some t else none
termination_by structural t

/-- The value at an index of a list whose last type may stand for several. -/
def listValueAt? (ts : List Ty) (index : Nat) : Option Ty :=
  match ts with
  | [] => none
  | [t] => valueAt? t index
  | t :: u :: ts =>
    match index with
    | 0 => some t
    | index + 1 => listValueAt? (u :: ts) index
termination_by structural ts

end

mutual

def valueCount? (t : Ty) : Option Nat :=
  match t with
  | .variadic _ => none
  | .multi items => listValueCount? items
  | _ => some 1
termination_by structural t

def listValueCount? (ts : List Ty) : Option Nat :=
  match ts with
  | [] => some 0
  | [t] => valueCount? t
  | _ :: u :: ts => (listValueCount? (u :: ts)).map (· + 1)
termination_by structural ts

end

def firstValue (t : Ty) : Ty :=
  match t with
  | .multi _ | .variadic _ => (valueAt? t 0).getD .nil
  | t => t

def ofReturns : List Ty → Ty
  | [] => .nil
  | [t] => t
  | ts => .multi ts

mutual

def tailValues (t : Ty) : List Ty :=
  match t with
  | .multi items => flattenMulti items
  | t => [t]
termination_by structural t

/-- Puts the values of the last type of a list in its place. -/
def flattenMulti (ts : List Ty) : List Ty :=
  match ts with
  | [] => []
  | [t] => tailValues t
  | t :: u :: ts => t :: flattenMulti (u :: ts)
termination_by structural ts

end

end Ty

end LuaAnalysis.Types
