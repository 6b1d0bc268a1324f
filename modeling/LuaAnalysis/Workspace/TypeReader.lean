import LuaAnalysis.Syntax.Literal
import LuaAnalysis.Syntax.Tree
import LuaAnalysis.Types.Multi
import LuaAnalysis.Types.Union

/-!
The type that a node of an annotation stands for. The names of generic parameters stand for
templates; any other name that is not built in is a named type.
-/

namespace LuaAnalysis.Workspace

open Syntax LuaAnalysis.Types

variable (t : Tree) (generics : List String)

def namedType (name : String) : Ty :=
  if name == "fun" then .function
  else if generics.contains name then .tpl name
  else (Ty.ofBuiltinName? name).getD (.ref name)

def literalType (node : ElementId) : Ty :=
  match (t.childTokens node).head? with
  | none => .unknown
  | some token =>
    let text := t.textOf token
    match t.tokenKind? token with
    | some .str => .strConst (Literal.stringValue text)
    | some .int => ((Literal.integerValue? text).map Ty.intConst).getD .integer
    | some .float => .number
    | some .name => .boolConst (text == "true")
    | _ => .unknown

def paramToken? (param : ElementId) : Option ElementId :=
  t.childToken? param .name <|> t.childToken? param .dots

variable (read : ElementId → Ty)

/-- What the first type below a node is read as, `unknown` if there is none. -/
def readFirst (node : ElementId) : Ty := ((t.types node).head?.map read).getD .unknown

def funcParam (param : ElementId) : String × Option Ty :=
  (((paramToken? t param).map t.textOf).getD "",
    (t.types param).head?.map fun node => if t.hasToken param .docQuestion then (read node).nullable
    else read node)

def funcType (node : ElementId) : Ty :=
  .func false false ((t.childrenOf node .docFuncParam).map (funcParam t read))
    (.ofReturns ((t.types node).map read))

def objectKey? (field : ElementId) : Option MemberKey := do
  let token ← (t.childTokens field).head?
  let text := t.textOf token
  match t.tokenKind? token with
  | some .name => some (.name text)
  | some .str => some (.name (Literal.stringValue text))
  | some .int => (Literal.integerValue? text).map .integer
  | _ => none

def objectField? (field : ElementId) : Option (MemberKey × Ty) :=
  if t.hasToken field .leftBracket then none
  else (objectKey? t field).map fun key =>
    let type := readFirst t read field
    (key, if t.hasToken field .docQuestion then type.nullable else type)

def objectAccess? (field : ElementId) : Option (Ty × Ty) :=
  if t.hasToken field .leftBracket then
    let types := (t.types field).map read
    some (types.head?.getD .unknown, types[1]?.getD .unknown)
  else none

def objectType (node : ElementId) : Ty :=
  let fields := t.childrenOf node .docObjectField
  .object (fields.filterMap (objectField? t read)) (fields.filterMap (objectAccess? t read))

/-- The type of a node, given how to read the nodes below it. Each of those nodes is read once. -/
def typeOfNode (node : ElementId) : Ty :=
  match t.kind node with
  | .typeName => ((t.nameText? node).map (namedType generics)).getD .unknown
  | .typeLiteral => literalType t node
  | .typeArray => .array (readFirst t read node)
  | .typeNullable => (readFirst t read node).nullable
  | .typeParen => readFirst t read node
  | .typeUnion => .unionOf ((t.types node).map read)
  | .typeTuple => .tuple ((t.types node).map read)
  | .typeGeneric => .generic ((t.nameText? node).getD "table") ((t.types node).map read)
  | .typeFun => funcType t read node
  | .typeObject => objectType t read node
  | .typeVariadic => .variadic (((t.types node).head?.map read).getD .any)
  | _ => .unknown

/-- The type of a node whose tree is at most `fuel` levels deep. -/
def typeDeep : Nat → ElementId → Ty
  | 0, _ => .unknown
  | fuel + 1, node => typeOfNode t generics (typeDeep fuel) node

def typeOf (node : ElementId) : Ty := typeDeep t generics t.size node

def firstType (node : ElementId) : Ty := readFirst t (typeOf t generics) node

end LuaAnalysis.Workspace
