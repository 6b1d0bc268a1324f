import LuaAnalysis.Types.Owner

/-!
Types of values. A named type is a name only, looked up in the workspace when it is needed, so a
type is always a finite tree.
-/

namespace LuaAnalysis.Types

open Document

inductive Ty where
  /-- Nothing is known; it goes with everything. -/
  | unknown
  | any
  /-- No value at all. -/
  | never
  | nil | boolean | integer | number | string | table | function | thread | userdata
  /-- The receiver of a method, filled in where the method is used. -/
  | self
  | boolConst (value : Bool)
  | intConst (value : Int)
  | strConst (value : String)
  /-- A class, an enum, an interface or an alias. -/
  | ref (name : String)
  /-- A parameter of a generic type or function. -/
  | tpl (name : String)
  | array (item : Ty)
  | tuple (items : List Ty)
  | object (fields : List (MemberKey × Ty)) (access : List (Ty × Ty))
  | union (members : List Ty)
  | generic (base : String) (params : List Ty)
  /-- A function written as a type. A parameter for all further arguments is called `...`. -/
  | func (isAsync isColon : Bool) (params : List (String × Option Ty)) (ret : Ty)
  /-- A function defined in code, by its closure. -/
  | signature (closure : NodeRef)
  /-- Several values at once; if the last is itself of this or the next form, it stands for the
  rest. -/
  | multi (items : List Ty)
  /-- Any number of values of one type. -/
  | variadic (item : Ty)
  /-- A table made by a constructor, by the owner of its members. -/
  | tableConst (owner : MemberOwner)
deriving Repr, Inhabited

/-- A function as a type: what can be called and with what. -/
structure FuncType where
  isAsync : Bool := false
  /-- Defined with a colon, so that the receiver comes before the first parameter. -/
  isColon : Bool := false
  params : List (String × Option Ty) := []
  ret : Ty := .unknown
deriving Repr, Inhabited

namespace FuncType

def toTy (f : FuncType) : Ty := .func f.isAsync f.isColon f.params f.ret

def isVararg (f : FuncType) : Bool :=
  match f.params.getLast? with
  | some (name, _) => name == "..."
  | none => false

end FuncType

namespace Ty

mutual

def beq (a b : Ty) : Bool :=
  match a, b with
  | .unknown, .unknown | .any, .any | .never, .never | .nil, .nil | .boolean,
      .boolean | .integer, .integer
  | .number, .number | .string, .string | .table, .table | .function, .function | .thread, .thread
  | .userdata, .userdata | .self, .self => true
  | .boolConst x, .boolConst y => x == y
  | .intConst x, .intConst y => x == y
  | .strConst x, .strConst y => x == y
  | .ref x, .ref y => x == y
  | .tpl x, .tpl y => x == y
  | .array x, .array y => beq x y
  | .tuple xs, .tuple ys => beqList xs ys
  | .object fs as, .object gs bs => beqFields fs gs && beqAccess as bs
  | .union xs, .union ys => xs.length == ys.length && allIn xs ys
  | .generic n xs, .generic m ys => n == m && beqList xs ys
  | .func s c ps r, .func t d qs q => s == t && c == d && beqParams ps qs && beq r q
  | .signature x, .signature y => x == y
  | .multi xs, .multi ys => beqList xs ys
  | .variadic x, .variadic y => beq x y
  | .tableConst x, .tableConst y => x == y
  | _, _ => false
termination_by structural a

def beqList (as bs : List Ty) : Bool :=
  match as, bs with
  | [], [] => true
  | a :: as, b :: bs => beq a b && beqList as bs
  | _, _ => false
termination_by structural as

def allIn (as bs : List Ty) : Bool :=
  match as with
  | [] => true
  | a :: as => bs.any (beq a) && allIn as bs
termination_by structural as

def beqFields (as bs : List (MemberKey × Ty)) : Bool :=
  match as, bs with
  | [], [] => true
  | (k, a) :: as, (l, b) :: bs => k == l && beq a b && beqFields as bs
  | _, _ => false
termination_by structural as

def beqAccess (as bs : List (Ty × Ty)) : Bool :=
  match as, bs with
  | [], [] => true
  | (k, a) :: as, (l, b) :: bs => beq k l && beq a b && beqAccess as bs
  | _, _ => false
termination_by structural as

def beqParams (as bs : List (String × Option Ty)) : Bool :=
  match as, bs with
  | [], [] => true
  | (n, none) :: as, (m, none) :: bs => n == m && beqParams as bs
  | (n, some a) :: as, (m, some b) :: bs => n == m && beq a b && beqParams as bs
  | _, _ => false
termination_by structural as

end

instance : BEq Ty := ⟨beq⟩

def func? : Ty → Option FuncType
  | .func isAsync isColon params ret => some ⟨isAsync, isColon, params, ret⟩
  | _ => none

def isUnknown : Ty → Bool
  | .unknown => true
  | _ => false

def isAny : Ty → Bool
  | .any => true
  | _ => false

def isNever : Ty → Bool
  | .never => true
  | _ => false

def isNil : Ty → Bool
  | .nil => true
  | _ => false

def isString : Ty → Bool
  | .string | .strConst _ => true
  | _ => false

def isInteger : Ty → Bool
  | .integer | .intConst _ => true
  | _ => false

def isNumber : Ty → Bool
  | .number | .integer | .intConst _ => true
  | _ => false

def isBoolean : Ty → Bool
  | .boolean | .boolConst _ => true
  | _ => false

def isFunctionLike : Ty → Bool
  | .function | .func .. | .signature _ => true
  | _ => false

def isLiteral : Ty → Bool
  | .boolConst _ | .intConst _ | .strConst _ => true
  | _ => false

def isUnion : Ty → Bool
  | .union _ => true
  | _ => false

def isMulti : Ty → Bool
  | .multi _ | .variadic _ => true
  | _ => false

mutual

def isOptional (t : Ty) : Bool :=
  match t with
  | .nil | .any | .unknown => true
  | .union members => anyOptional members
  | _ => false
termination_by structural t

def anyOptional (ts : List Ty) : Bool :=
  match ts with
  | [] => false
  | t :: ts => isOptional t || anyOptional ts
termination_by structural ts

end

def children : Ty → List Ty
  | .array item => [item]
  | .tuple items => items
  | .object fields access => fields.map (·.2) ++ access.flatMap fun (k, v) => [k, v]
  | .union members => members
  | .generic _ params => params
  | .func _ _ params ret => params.filterMap (·.2) ++ [ret]
  | .multi items => items
  | .variadic item => [item]
  | _ => []

mutual

def containsTpl (t : Ty) : Bool :=
  match t with
  | .tpl _ | .self => true
  | .array item => containsTpl item
  | .tuple items => anyTpl items
  | .object fields access => anyFieldTpl fields || anyAccessTpl access
  | .union members => anyTpl members
  | .generic _ params => anyTpl params
  | .func _ _ params ret => anyParamTpl params || containsTpl ret
  | .multi items => anyTpl items
  | .variadic item => containsTpl item
  | _ => false
termination_by structural t

def anyTpl (ts : List Ty) : Bool :=
  match ts with
  | [] => false
  | t :: ts => containsTpl t || anyTpl ts
termination_by structural ts

def anyFieldTpl (fs : List (MemberKey × Ty)) : Bool :=
  match fs with
  | [] => false
  | (_, t) :: fs => containsTpl t || anyFieldTpl fs
termination_by structural fs

def anyAccessTpl (as : List (Ty × Ty)) : Bool :=
  match as with
  | [] => false
  | (k, v) :: as => containsTpl k || containsTpl v || anyAccessTpl as
termination_by structural as

def anyParamTpl (ps : List (String × Option Ty)) : Bool :=
  match ps with
  | [] => false
  | (_, none) :: ps => anyParamTpl ps
  | (_, some t) :: ps => containsTpl t || anyParamTpl ps
termination_by structural ps

end

def ofBuiltinName? : String → Option Ty
  | "unknown" => some .unknown
  | "any" => some .any
  | "nil" | "void" => some .nil
  | "never" => some .never
  | "boolean" | "bool" => some .boolean
  | "integer" | "int" => some .integer
  | "number" => some .number
  | "string" => some .string
  | "table" => some .table
  | "function" => some .function
  | "thread" => some .thread
  | "userdata" | "lightuserdata" => some .userdata
  | "self" => some .self
  | _ => none

end Ty

/-- Names that belong to the language of types, so that no class of such a name has members. -/
def isReservedName (name : String) : Bool :=
  ["nil", "any", "unknown", "never", "void", "self", "T", "boolean", "integer", "number",
   "string", "table", "function", "thread", "userdata", "lightuserdata"].contains name

end LuaAnalysis.Types
