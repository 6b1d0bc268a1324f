/-!
The kinds of token of source code and of the annotation language inside comments. Both share one
type, so that one tree can hold both layers.
-/

namespace LuaAnalysis.Syntax

inductive TokenKind where
  | absent
  -- keywords
  | kwAnd | kwBreak | kwDo | kwElse | kwElseIf | kwEnd | kwFalse | kwFor | kwFunction | kwGoto
  | kwIf
  | kwIn | kwLocal | kwNil | kwNot | kwOr | kwRepeat | kwReturn | kwThen | kwTrue | kwUntil
  | kwWhile
  -- operators and punctuation
  | plus | minus | mul | div | idiv | mod | pow | len | bitAnd | bitXor | bitOr
  | shl | shr | eq | ne | le | ge | lt | gt | assign | leftParen | rightParen
  | leftBrace | rightBrace | leftBracket | rightBracket | dbColon | semicolon | colon | comma | dot
  | concat | dots
  -- literals; an incomplete long bracket is an opener `[=` without its second bracket
  | name | int | float | str | longString | incompleteLongBracket
  -- trivia
  | whitespace | endOfLine | shortComment | longComment | shebang
  | unknown | eof
  -- comment openers: three dashes, a long opener with a tag, a plain comment, an alias continuation
  | docStart | docLongStart | normalStart | docContinueOr
  -- annotation tags
  | tagClass | tagEnum | tagInterface | tagAlias | tagField | tagParam | tagReturn | tagType
  | tagGeneric | tagOverload | tagDeprecated
  | tagAsync | tagNodiscard | tagDiagnostic | tagSource | tagMapping | tagVersion | tagVisibility
  | tagMeta | tagOperator | tagOther
  -- punctuation and free text of annotations
  | docQuestion | docOr | docHash | docDescription | docLineEnd | docTrivia
deriving DecidableEq, Repr, Inhabited, Hashable

namespace TokenKind

def label : TokenKind → String
  | .absent => "None"
  | .kwAnd => "And"
  | .kwBreak => "Break"
  | .kwDo => "Do"
  | .kwElse => "Else"
  | .kwElseIf => "ElseIf"
  | .kwEnd => "End"
  | .kwFalse => "False"
  | .kwFor => "For"
  | .kwFunction => "Function"
  | .kwGoto => "Goto"
  | .kwIf => "If"
  | .kwIn => "In"
  | .kwLocal => "Local"
  | .kwNil => "Nil"
  | .kwNot => "Not"
  | .kwOr => "Or"
  | .kwRepeat => "Repeat"
  | .kwReturn => "Return"
  | .kwThen => "Then"
  | .kwTrue => "True"
  | .kwUntil => "Until"
  | .kwWhile => "While"
  | .plus => "Plus"
  | .minus => "Minus"
  | .mul => "Mul"
  | .div => "Div"
  | .idiv => "IDiv"
  | .mod => "Mod"
  | .pow => "Pow"
  | .len => "Len"
  | .bitAnd => "BitAnd"
  | .bitXor => "BitXor"
  | .bitOr => "BitOr"
  | .shl => "Shl"
  | .shr => "Shr"
  | .eq => "Eq"
  | .ne => "Ne"
  | .le => "Le"
  | .ge => "Ge"
  | .lt => "Lt"
  | .gt => "Gt"
  | .assign => "Assign"
  | .leftParen => "LeftParen"
  | .rightParen => "RightParen"
  | .leftBrace => "LeftBrace"
  | .rightBrace => "RightBrace"
  | .leftBracket => "LeftBracket"
  | .rightBracket => "RightBracket"
  | .dbColon => "DbColon"
  | .semicolon => "Semicolon"
  | .colon => "Colon"
  | .comma => "Comma"
  | .dot => "Dot"
  | .concat => "Concat"
  | .dots => "Dots"
  | .name => "Name"
  | .int => "Int"
  | .float => "Float"
  | .str => "String"
  | .longString => "LongString"
  | .incompleteLongBracket => "IncompleteLongBracket"
  | .whitespace => "Whitespace"
  | .endOfLine => "EndOfLine"
  | .shortComment => "ShortComment"
  | .longComment => "LongComment"
  | .shebang => "Shebang"
  | .unknown => "Unknown"
  | .eof => "Eof"
  | .docStart => "DocStart"
  | .docLongStart => "DocLongStart"
  | .normalStart => "NormalStart"
  | .docContinueOr => "DocContinueOr"
  | .tagClass => "TagClass"
  | .tagEnum => "TagEnum"
  | .tagInterface => "TagInterface"
  | .tagAlias => "TagAlias"
  | .tagField => "TagField"
  | .tagParam => "TagParam"
  | .tagReturn => "TagReturn"
  | .tagType => "TagType"
  | .tagGeneric => "TagGeneric"
  | .tagOverload => "TagOverload"
  | .tagDeprecated => "TagDeprecated"
  | .tagAsync => "TagAsync"
  | .tagNodiscard => "TagNodiscard"
  | .tagDiagnostic => "TagDiagnostic"
  | .tagSource => "TagSource"
  | .tagMapping => "TagMapping"
  | .tagVersion => "TagVersion"
  | .tagVisibility => "TagVisibility"
  | .tagMeta => "TagMeta"
  | .tagOperator => "TagOperator"
  | .tagOther => "TagOther"
  | .docQuestion => "DocQuestion"
  | .docOr => "DocOr"
  | .docHash => "DocHash"
  | .docDescription => "DocDescription"
  | .docLineEnd => "DocLineEnd"
  | .docTrivia => "DocTrivia"

/-- How a token is called in a message: its spelling, or what it stands for. -/
def describe : TokenKind → String
  | .kwAnd => "and"
  | .kwBreak => "break"
  | .kwDo => "do"
  | .kwElse => "else"
  | .kwElseIf => "elseif"
  | .kwEnd => "end"
  | .kwFalse => "false"
  | .kwFor => "for"
  | .kwFunction => "function"
  | .kwGoto => "goto"
  | .kwIf => "if"
  | .kwIn => "in"
  | .kwLocal => "local"
  | .kwNil => "nil"
  | .kwNot => "not"
  | .kwOr => "or"
  | .kwRepeat => "repeat"
  | .kwReturn => "return"
  | .kwThen => "then"
  | .kwTrue => "true"
  | .kwUntil => "until"
  | .kwWhile => "while"
  | .plus => "+"
  | .minus => "-"
  | .mul => "*"
  | .div => "/"
  | .idiv => "//"
  | .mod => "%"
  | .pow => "^"
  | .len => "#"
  | .bitAnd => "&"
  | .bitXor => "~"
  | .bitOr => "|"
  | .shl => "<<"
  | .shr => ">>"
  | .eq => "=="
  | .ne => "~="
  | .le => "<="
  | .ge => ">="
  | .lt => "<"
  | .gt => ">"
  | .assign => "="
  | .leftParen => "("
  | .rightParen => ")"
  | .leftBrace => "\x7b"
  | .rightBrace => "\x7d"
  | .leftBracket => "["
  | .rightBracket => "]"
  | .dbColon => "::"
  | .semicolon => ";"
  | .colon => ":"
  | .comma => ","
  | .dot => "."
  | .concat => ".."
  | .dots => "..."
  | .name => "name"
  | .int => "number"
  | .float => "number"
  | .str => "string"
  | .longString => "string"
  | .eof => "end of file"
  | .docQuestion => "?"
  | .docOr => "|"
  | k => k.label

def isTrivia : TokenKind → Bool
  | .whitespace | .endOfLine | .shortComment | .longComment | .shebang => true
  | _ => false

def isComment : TokenKind → Bool
  | .shortComment | .longComment => true
  | _ => false

def isTag : TokenKind → Bool
  | .tagClass | .tagEnum | .tagInterface | .tagAlias | .tagField | .tagParam | .tagReturn | .tagType
  | .tagGeneric
  | .tagOverload | .tagDeprecated | .tagAsync | .tagNodiscard | .tagDiagnostic | .tagSource
  | .tagMapping | .tagVersion
  | .tagVisibility | .tagMeta | .tagOperator | .tagOther => true
  | _ => false

def keywords : List (String × TokenKind) :=
  [("and", .kwAnd), ("break", .kwBreak), ("do", .kwDo), ("else", .kwElse), ("elseif", .kwElseIf),
   ("end", .kwEnd), ("false", .kwFalse), ("for", .kwFor), ("function", .kwFunction),
   ("goto", .kwGoto),
   ("if", .kwIf), ("in", .kwIn), ("local", .kwLocal), ("nil", .kwNil), ("not", .kwNot),
   ("or", .kwOr), ("repeat", .kwRepeat), ("return", .kwReturn), ("then", .kwThen),
   ("true", .kwTrue),
   ("until", .kwUntil), ("while", .kwWhile)]

def ofWord (word : String) : TokenKind := (keywords.lookup word).getD .name

/-- The words after an `@` that open an annotation of their own. -/
def tagWords : List (String × TokenKind) :=
  [("class", .tagClass), ("enum", .tagEnum), ("interface", .tagInterface), ("alias", .tagAlias),
   ("field", .tagField), ("param", .tagParam), ("return", .tagReturn), ("type", .tagType),
   ("generic", .tagGeneric), ("overload", .tagOverload), ("deprecated", .tagDeprecated),
   ("async", .tagAsync),
   ("nodiscard", .tagNodiscard), ("diagnostic", .tagDiagnostic), ("source", .tagSource),
   ("mapping", .tagMapping),
   ("version", .tagVersion), ("public", .tagVisibility), ("protected", .tagVisibility),
   ("private", .tagVisibility),
   ("package", .tagVisibility), ("meta", .tagMeta), ("operator", .tagOperator)]

def ofTagWord (word : String) : TokenKind := (tagWords.lookup word).getD .tagOther

end TokenKind

end LuaAnalysis.Syntax
