import LuaAnalysis.Syntax.TokenKind

namespace LuaAnalysis.Syntax

inductive BinaryOperator where
  | or | and
  | lt | gt | le | ge | ne | eq
  | bitOr | bitXor | bitAnd | shl | shr
  | concat | add | sub | mul | div | idiv | mod | pow
deriving DecidableEq, Repr, Inhabited

namespace BinaryOperator

def ofToken? : TokenKind → Option BinaryOperator
  | .kwOr => some .or
  | .kwAnd => some .and
  | .lt => some .lt
  | .gt => some .gt
  | .le => some .le
  | .ge => some .ge
  | .ne => some .ne
  | .eq => some .eq
  | .bitOr => some .bitOr
  | .bitXor => some .bitXor
  | .bitAnd => some .bitAnd
  | .shl => some .shl
  | .shr => some .shr
  | .concat => some .concat
  | .plus => some .add
  | .minus => some .sub
  | .mul => some .mul
  | .div => some .div
  | .idiv => some .idiv
  | .mod => some .mod
  | .pow => some .pow
  | _ => none

def leftPriority : BinaryOperator → Nat
  | .or => 1
  | .and => 2
  | .lt | .gt | .le | .ge | .ne | .eq => 3
  | .bitOr => 4
  | .bitXor => 5
  | .bitAnd => 6
  | .shl | .shr => 7
  | .concat => 9
  | .add | .sub => 10
  | .mul | .div | .idiv | .mod => 11
  | .pow => 14

/-- How tightly an operator holds the operand on its right. It is less than on the left for the two
operators that associate to the right. -/
def rightPriority : BinaryOperator → Nat
  | .concat => 8
  | .pow => 13
  | op => op.leftPriority

def overloadName? : BinaryOperator → Option String
  | .add => some "add"
  | .sub => some "sub"
  | .mul => some "mul"
  | .div => some "div"
  | .idiv => some "idiv"
  | .mod => some "mod"
  | .pow => some "pow"
  | .concat => some "concat"
  | .bitAnd => some "band"
  | .bitOr => some "bor"
  | .bitXor => some "bxor"
  | .shl => some "shl"
  | .shr => some "shr"
  | _ => none

end BinaryOperator

inductive UnaryOperator where
  | not | neg | len | bitNot
deriving DecidableEq, Repr, Inhabited

namespace UnaryOperator

/-- Unary operators bind tighter than every binary operator but the power. -/
def priority : Nat := 12

def ofToken? : TokenKind → Option UnaryOperator
  | .kwNot => some .not
  | .minus => some .neg
  | .len => some .len
  | .bitXor => some .bitNot
  | _ => none

def overloadName? : UnaryOperator → Option String
  | .neg => some "unm"
  | .len => some "len"
  | .bitNot => some "bnot"
  | .not => none

end UnaryOperator

end LuaAnalysis.Syntax
