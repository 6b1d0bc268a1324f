import LuaAnalysis.Text.Span
import LuaAnalysis.Syntax.TokenKind

/-!
What can be wrong with a text. Nothing stops the reading of a text: each fault is recorded with the
span it is reported at.
-/

namespace LuaAnalysis.Syntax

/-- What is wrong with a token that was kept all the same. -/
inductive LexFault where
  | invalidLongDelimiter
  | unexpectedCharacter (c : Char)
  | unfinishedLongComment
  | unfinishedLongString
  | unfinishedString
  | malformedNumber
deriving DecidableEq, Repr

def LexFault.message : LexFault → String
  | .invalidLongDelimiter => "invalid long string delimiter"
  | .unexpectedCharacter c => "unexpected character '" ++ c.toString ++ "'"
  | .unfinishedLongComment => "unfinished long comment"
  | .unfinishedLongString => "unfinished long string"
  | .unfinishedString => "unfinished string"
  | .malformedNumber => "malformed number"

/-- What is wrong at a place of a text. -/
inductive Fault where
  | lex (fault : LexFault)
  | expected (wanted found : TokenKind)
  | unexpected (found : TokenKind)
  | expectedName
  | expectedExpression
  | expectedUnaryOperand
  | expectedBinaryOperand
  | expectedCallArguments
  | notACallOrAssignment
  | unexpectedInComment (text : String)
  | expectedType (found : TokenKind)
  | expectedVersion
  | expectedFieldName
  | textAfterAliasMember
  | note (message : String)
deriving DecidableEq, Repr

def Fault.message : Fault → String
  | .lex fault => fault.message
  | .expected wanted found => "expected '" ++ wanted.describe ++ "', found '" ++
      found.describe ++ "'"
  | .unexpected found => "unexpected '" ++ found.describe ++ "'"
  | .expectedName => "expected a name"
  | .expectedExpression => "expected expression"
  | .expectedUnaryOperand => "expected expression after unary operator"
  | .expectedBinaryOperand => "expected expression after binary operator"
  | .expectedCallArguments => "expected call arguments"
  | .notACallOrAssignment => "syntax error near expression, expected a call or an assignment"
  | .unexpectedInComment text => "unexpected '" ++ text ++ "' in doc comment"
  | .expectedType found => "expected a type, found '" ++ found.describe ++ "'"
  | .expectedVersion => "expected a version"
  | .expectedFieldName => "expected a field name"
  | .textAfterAliasMember => "unexpected text after alias member"
  | .note message => message

/-- A fault and the span it is reported at. -/
structure SyntaxError where
  fault : Fault
  span : Span
deriving DecidableEq, Repr

def SyntaxError.message (e : SyntaxError) : String := e.fault.message

end LuaAnalysis.Syntax
