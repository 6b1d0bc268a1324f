import LuaAnalysis.Proofs.Syntax.WordRuns
import LuaAnalysis.Syntax.Operator

/-!
Expressions as trees of operators, and the words that they are written with. A tree is well
parenthesised if its words leave no other way to read it.
-/

namespace LuaAnalysis.Syntax

def stringKinds : List TokenKind := [.str, .longString]

def literalKinds : List TokenKind :=
  [.int, .float, .str, .longString, .kwNil, .kwTrue, .kwFalse, .dots]

abbrev Name := WordOf [.name]

abbrev Literal := WordOf literalKinds

namespace Word

def leftParen : Word := { kind := .leftParen, text := "(" }

def rightParen : Word := { kind := .rightParen, text := ")" }

def leftBracket : Word := { kind := .leftBracket, text := "[" }

def rightBracket : Word := { kind := .rightBracket, text := "]" }

def leftBrace : Word := { kind := .leftBrace, text := "\x7b" }

def rightBrace : Word := { kind := .rightBrace, text := "\x7d" }

def dot : Word := { kind := .dot, text := "." }

def colon : Word := { kind := .colon, text := ":" }

def comma : Word := { kind := .comma, text := "," }

def semicolon : Word := { kind := .semicolon, text := ";" }

def assign : Word := { kind := .assign, text := "=" }

def kwReturn : Word := { kind := .kwReturn, text := "return" }

end Word

def BinaryOperator.spelling : BinaryOperator → TokenKind × String
  | .or => (.kwOr, "or")
  | .and => (.kwAnd, "and")
  | .lt => (.lt, "<")
  | .gt => (.gt, ">")
  | .le => (.le, "<=")
  | .ge => (.ge, ">=")
  | .ne => (.ne, "~=")
  | .eq => (.eq, "==")
  | .bitOr => (.bitOr, "|")
  | .bitXor => (.bitXor, "~")
  | .bitAnd => (.bitAnd, "&")
  | .shl => (.shl, "<<")
  | .shr => (.shr, ">>")
  | .concat => (.concat, "..")
  | .add => (.plus, "+")
  | .sub => (.minus, "-")
  | .mul => (.mul, "*")
  | .div => (.div, "/")
  | .idiv => (.idiv, "//")
  | .mod => (.mod, "%")
  | .pow => (.pow, "^")

theorem BinaryOperator.isWord_spelling (op : BinaryOperator) :
    IsWord op.spelling.1 op.spelling.2 := by
  cases op <;> decide +kernel

def BinaryOperator.word (op : BinaryOperator) : Word :=
  ⟨op.spelling.1, op.spelling.2, op.isWord_spelling⟩

def UnaryOperator.spelling : UnaryOperator → TokenKind × String
  | .not => (.kwNot, "not")
  | .neg => (.minus, "-")
  | .len => (.len, "#")
  | .bitNot => (.bitXor, "~")

theorem UnaryOperator.isWord_spelling (op : UnaryOperator) :
    IsWord op.spelling.1 op.spelling.2 := by
  cases op <;> decide +kernel

def UnaryOperator.word (op : UnaryOperator) : Word :=
  ⟨op.spelling.1, op.spelling.2, op.isWord_spelling⟩

/-- What stands behind a field of a table if another one may follow. -/
inductive Separator where
  | comma
  | semicolon

def Separator.word : Separator → Word
  | .comma => .comma
  | .semicolon => .semicolon

mutual

inductive Expr where
  | name (name : Name)
  | literal (literal : Literal)
  | paren (inner : Expr)
  | unary (op : UnaryOperator) (operand : Expr)
  | binary (op : BinaryOperator) (left right : Expr)
  | field (front : Expr) (name : Name)
  | index (front key : Expr)
  | call (callee : Expr) (args : Args)
  | method (receiver : Expr) (name : Name) (args : Args)
  | table (entries : Entries)

/-- What a function is called with: a list in parentheses, or a single string or table. -/
inductive Args where
  | empty
  | list (first : Expr) (others : Others)
  | string (string : WordOf stringKinds)
  | table (entries : Entries)

/-- Expressions with a comma before each. -/
inductive Others where
  | nil
  | cons (expr : Expr) (others : Others)

/-- The fields of a table. The last one may go without a separator. -/
inductive Entries where
  | nil
  | last (entry : Entry)
  | cons (entry : Entry) (separator : Separator) (entries : Entries)

inductive Entry where
  | value (value : Expr)
  | named (name : Name) (value : Expr)
  | keyed (key value : Expr)

end

mutual

def Expr.words : Expr → List Word
  | .name n => [n.toWord]
  | .literal l => [l.toWord]
  | .paren e => .leftParen :: (e.words ++ [.rightParen])
  | .unary op e => op.word :: e.words
  | .binary op l r => l.words ++ op.word :: r.words
  | .field e n => e.words ++ [.dot, n.toWord]
  | .index e k => e.words ++ .leftBracket :: (k.words ++ [.rightBracket])
  | .call e args => e.words ++ args.words
  | .method e n args => e.words ++ .colon :: n.toWord :: args.words
  | .table entries => .leftBrace :: (entries.words ++ [.rightBrace])

def Args.words : Args → List Word
  | .empty => [.leftParen, .rightParen]
  | .list e others => .leftParen :: (e.words ++ (others.words ++ [.rightParen]))
  | .string s => [s.toWord]
  | .table entries => .leftBrace :: (entries.words ++ [.rightBrace])

def Others.words : Others → List Word
  | .nil => []
  | .cons e others => .comma :: (e.words ++ others.words)

def Entries.words : Entries → List Word
  | .nil => []
  | .last entry => entry.words
  | .cons entry separator entries => entry.words ++ separator.word :: entries.words

def Entry.words : Entry → List Word
  | .value e => e.words
  | .named n e => n.toWord :: .assign :: e.words
  | .keyed k e => .leftBracket :: (k.words ++ .rightBracket :: .assign :: e.words)

end

mutual

def Expr.shape : Expr → Shape
  | .name n => .node .nameExpr [n.shape]
  | .literal l => .node .literalExpr [l.shape]
  | .paren e => .node .parenExpr [Word.leftParen.shape, e.shape, Word.rightParen.shape]
  | .unary op e => .node .unaryExpr [op.word.shape, e.shape]
  | .binary op l r => .node .binaryExpr [l.shape, op.word.shape, r.shape]
  | .field e n => .node .indexExpr [e.shape, Word.dot.shape, n.shape]
  | .index e k => .node .indexExpr [e.shape, Word.leftBracket.shape, k.shape,
      Word.rightBracket.shape]
  | .call e args => .node .callExpr [e.shape, .node .callArgList args.shapes]
  | .method e n args =>
    .node .callExpr [.node .indexExpr [e.shape, Word.colon.shape, n.shape],
      .node .callArgList args.shapes]
  | .table entries =>
    .node .tableExpr (Word.leftBrace.shape :: (entries.shapes ++ [Word.rightBrace.shape]))

def Args.shapes : Args → List Shape
  | .empty => [Word.leftParen.shape, Word.rightParen.shape]
  | .list e others => Word.leftParen.shape :: e.shape :: (others.shapes ++ [Word.rightParen.shape])
  | .string s => [.node .literalExpr [s.shape]]
  | .table entries =>
    [.node .tableExpr (Word.leftBrace.shape :: (entries.shapes ++ [Word.rightBrace.shape]))]

def Others.shapes : Others → List Shape
  | .nil => []
  | .cons e others => Word.comma.shape :: e.shape :: others.shapes

def Entries.shapes : Entries → List Shape
  | .nil => []
  | .last entry => [.node .tableField entry.shapes]
  | .cons entry separator entries => .node .tableField (entry.shapes ++ [separator.word.shape]) ::
      entries.shapes

def Entry.shapes : Entry → List Shape
  | .value e => [e.shape]
  | .named n e => [n.shape, Word.assign.shape, e.shape]
  | .keyed k e =>
    [Word.leftBracket.shape, k.shape, Word.rightBracket.shape, Word.assign.shape, e.shape]

end

namespace Expr

/-- The operator that an expression is made by, if it is a binary one. -/
def root? : Expr → Option BinaryOperator
  | .binary op _ _ => some op
  | _ => none

/-- How tightly the operators hold what stands last in an expression, the outermost first. -/
def rightHolds : Expr → List Nat
  | .unary _ e => UnaryOperator.priority :: e.rightHolds
  | .binary op _ r => op.rightPriority :: r.rightHolds
  | _ => []

def IsFront : Expr → Prop
  | .name _ | .paren _ | .field _ _ | .index _ _ | .call _ _ | .method _ _ _ => True
  | _ => False

/-- Every operator that a limit lets an operand be extended by holds it tighter. -/
def Above (limit : Nat) (e : Expr) : Prop := ∀ op, e.root? = some op → limit < op.leftPriority

end Expr

mutual

/-- The right operand of an operator is made by one that binds tighter than it holds, and nothing
that stands last in the left operand is held less tightly than the operator holds it. Only what has
an end of its own is called or indexed. -/
def Expr.WellParenthesised : Expr → Prop
  | .name _ => True
  | .literal _ => True
  | .paren e => e.WellParenthesised
  | .unary _ e => e.WellParenthesised ∧ e.Above UnaryOperator.priority
  | .binary op l r =>
    l.WellParenthesised ∧ r.WellParenthesised ∧ (∀ held ∈ l.rightHolds, op.leftPriority ≤ held) ∧
      r.Above op.rightPriority
  | .field e _ => e.IsFront ∧ e.WellParenthesised
  | .index e k => e.IsFront ∧ e.WellParenthesised ∧ k.WellParenthesised
  | .call e args => e.IsFront ∧ e.WellParenthesised ∧ args.WellParenthesised
  | .method e _ args => e.IsFront ∧ e.WellParenthesised ∧ args.WellParenthesised
  | .table entries => entries.WellParenthesised

def Args.WellParenthesised : Args → Prop
  | .empty => True
  | .list e others => e.WellParenthesised ∧ others.WellParenthesised
  | .string _ => True
  | .table entries => entries.WellParenthesised

def Others.WellParenthesised : Others → Prop
  | .nil => True
  | .cons e others => e.WellParenthesised ∧ others.WellParenthesised

def Entries.WellParenthesised : Entries → Prop
  | .nil => True
  | .last entry => entry.WellParenthesised
  | .cons entry _ entries => entry.WellParenthesised ∧ entries.WellParenthesised

def Entry.WellParenthesised : Entry → Prop
  | .value e => e.WellParenthesised
  | .named _ e => e.WellParenthesised
  | .keyed k e => k.WellParenthesised ∧ e.WellParenthesised

end

/-- An expression behind the word `return`, with a blank between any two words. -/
def Expr.returned (e : Expr) : String := spaced (.kwReturn :: e.words)

end LuaAnalysis.Syntax
