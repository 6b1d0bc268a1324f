import LuaAnalysis.Text.Quoted
import LuaAnalysis.Types.Ty

namespace LuaAnalysis.Types

namespace Ty

def isFunc : Ty → Bool
  | .func .. => true
  | _ => false

/-- The text of a union, of which the members and their texts are given. With `nil` as one of two
members it is the other one with a question mark. -/
def unionText (members : List Ty) (texts : List String) : String :=
  if members.length == 2 && members.any isNil then
    match (members.zip texts).find? fun (t, _) => !t.isNil with
    | some (t, text) => if t.isFunc then "(" ++ text ++ ")?" else text ++ "?"
    | none => "nil?"
  else "|".intercalate texts

def funcText (isAsync : Bool) (params : List String) (ret : Ty) (retText : String) : String :=
  (if isAsync then "async " else "") ++ "fun(" ++ ", ".intercalate params ++ ")" ++
    (if ret.isNil then "" else ": " ++ retText)

def tableText : MemberOwner → String
  | .global path => "table<" ++ path ++ ">"
  | _ => "table"

mutual

def text (t : Ty) : String :=
  match t with
  | .unknown => "unknown"
  | .any => "any"
  | .never => "never"
  | .nil => "nil"
  | .boolean => "boolean"
  | .integer => "integer"
  | .number => "number"
  | .string => "string"
  | .table => "table"
  | .function => "function"
  | .thread => "thread"
  | .userdata => "userdata"
  | .self => "self"
  | .boolConst value => if value then "true" else "false"
  | .intConst value => toString value
  | .strConst value => Text.quoted value
  | .ref name => name
  | .tpl name => name
  | .array item => if item.isUnion || item.isFunc then "(" ++ text item ++ ")[]"
      else text item ++ "[]"
  | .tuple items => "[" ++ ", ".intercalate (texts items) ++ "]"
  | .object fields access =>
    "\x7b " ++ ", ".intercalate (fieldTexts fields ++ accessTexts access) ++ " \x7d"
  | .union members => unionText members (texts members)
  | .generic base params => base ++ "<" ++ ", ".intercalate (texts params) ++ ">"
  | .func isAsync _ params ret => funcText isAsync (paramTexts params) ret (text ret)
  | .signature _ => "function"
  | .multi items => ", ".intercalate (texts items)
  | .variadic item => "..." ++ text item
  | .tableConst owner => tableText owner
termination_by structural t

def texts (ts : List Ty) : List String :=
  match ts with
  | [] => []
  | t :: ts => text t :: texts ts
termination_by structural ts

def fieldTexts (fs : List (MemberKey × Ty)) : List String :=
  match fs with
  | [] => []
  | (key, t) :: fs => (key.text ++ ": " ++ text t) :: fieldTexts fs
termination_by structural fs

def accessTexts (as : List (Ty × Ty)) : List String :=
  match as with
  | [] => []
  | (k, v) :: as => ("[" ++ text k ++ "]: " ++ text v) :: accessTexts as
termination_by structural as

def paramTexts (ps : List (String × Option Ty)) : List String :=
  match ps with
  | [] => []
  | (n, none) :: ps => n :: paramTexts ps
  | (n, some t) :: ps => (n ++ ": " ++ text t) :: paramTexts ps
termination_by structural ps

end

end Ty

def FuncType.text (f : FuncType) : String := f.toTy.text

end LuaAnalysis.Types
