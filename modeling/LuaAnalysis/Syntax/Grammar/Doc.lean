import LuaAnalysis.Syntax.Grammar.DocType

/-!
The annotations of a comment group, line by line. Each tag has its own grammar. A tag that does not
follow it becomes a tag of no special kind, with the fault recorded in it and the rest of its line
as free text.
-/

namespace LuaAnalysis.Syntax.Doc

open DocM

def attributes : DocM Unit := do
  unless ← sees .leftParen do
    return
  node .docAttribute do
    bump
    commaSeparated (expect .name)
    expect .rightParen

def genericParams : DocM Unit :=
  commaSeparated do
    node .docGenericParam do
      expect .name
      whenEaten .colon (nested DocType.type)

def genericDeclList : DocM Unit := do
  unless ← sees .lt do
    return
  node .docGenericDeclList do
    bump
    genericParams
    expect .gt

def classLike : DocM Unit := do
  attributes
  expect .name
  genericDeclList
  whenEaten .colon (node .docSuperList (commaSeparated DocType.type))
  description

def enumeration : DocM Unit := do
  attributes
  expect .name
  whenEaten .colon DocType.type
  description

/-- A member of an alias on a line of its own. What does not parse is recorded and taken as text. -/
def aliasMember : DocM Unit := do
  let saved := (← get).checkpoint
  tryCatch (node .docAliasMember do
    bump
    DocType.type
    description) fun e => modify fun p => (p.rollback saved).bump.recover e

def needLineEnd : DocM Unit := do
  unless ← sees .docLineEnd do
    fail .textAfterAliasMember

def aliasLines : Nat → DocM Unit
  | 0 => pure ()
  | n + 1 => do
    let p ← get
    unless p.nextLineContinues do
      return
    set (p.nextLine?.getD p)
    aliasMember
    needLineEnd
    aliasLines n

def aliasType : DocM Unit := do
  unless (← sees .docLineEnd) || (← sees .docHash) do
    DocType.type

def aliasBody : DocM Unit := do
  expect .name
  genericDeclList
  aliasType
  description
  aliasLines (← get).later.length

def fieldKey : DocM Unit := do
  if ← eat .leftBracket then
    nested DocType.type
    expect .rightBracket
  else
    expect .name

def fieldRest : DocM Unit := do
  fieldKey
  discard (eat .docQuestion)
  DocType.type
  description

def visibilityWords : List String := ["public", "protected", "private", "package"]

/-- A field, which may start with its visibility. The visibility words are also names of fields, so
a field that does not go on behind one is read again with the word as its name. -/
def field : DocM Unit := do
  if (← sees .name) && visibilityWords.contains (← currentText) then
    let saved := (← get).checkpoint
    tryCatch (do
      node .docVisibility bump
      fieldRest) fun _ => do
        modify fun p => p.rollback saved
        fieldRest
  else
    fieldRest

def param : DocM Unit := do
  nameOrDots
  discard (eat .docQuestion)
  DocType.type
  description

def results : DocM Unit := do
  commaSeparated do
    node .docNamedReturn do
      DocType.type
      discard (eat .name)
  description

def typeList : DocM Unit := do
  commaSeparated DocType.type
  description

def diagnostic : DocM Unit := do
  expect .name
  whenEaten .colon (node .docDiagnosticCodeList (commaSeparated (expect .name)))

def versionRange : DocM Unit := do
  unless ← eat .gt do
    discard (eat .lt)

def versionNumber : DocM Unit := do
  match ← kind with
  | .name | .float | .int => bump
  | _ => fail .expectedVersion

def versions : DocM Unit := do
  commaSeparated do
    node .docVersion do
      versionRange
      versionNumber
  description

def operator : DocM Unit := do
  expect .name
  whenEaten .leftParen do
    node .docTypeList (unlessSees .rightParen (commaSeparated (nested DocType.type)))
    expect .rightParen
  whenEaten .colon DocType.type
  description

def tagBody : TokenKind → DocM NodeKind
  | .tagClass => do classLike; return .docTagClass
  | .tagInterface => do classLike; return .docTagInterface
  | .tagEnum => do enumeration; return .docTagEnum
  | .tagAlias => do aliasBody; return .docTagAlias
  | .tagField => do field; return .docTagField
  | .tagParam => do param; return .docTagParam
  | .tagReturn => do results; return .docTagReturn
  | .tagType => do typeList; return .docTagType
  | .tagGeneric => do genericParams; description; return .docTagGeneric
  | .tagOverload => do DocType.type; description; return .docTagOverload
  | .tagDiagnostic => do diagnostic; return .docTagDiagnostic
  | .tagMapping => do expect .name; description; return .docTagMapping
  | .tagVersion => do versions; return .docTagVersion
  | .tagOperator => do operator; return .docTagOperator
  | .tagSource => do freeText; return .docTagSource
  | .tagDeprecated => do freeText; return .docTagDeprecated
  | .tagAsync => do description; return .docTagAsync
  | .tagNodiscard => do description; return .docTagNodiscard
  | .tagMeta => do freeText; return .docTagMeta
  | .tagVisibility => do description; return .docTagVisibility
  | _ => do freeText; return .docTagOther

def failedTag (saved : DocParser.Checkpoint) (e : SyntaxError) (p : DocParser) : DocParser :=
  let (p, m) := (p.rollback saved).openNode
  (p.bump.recover e).finish m .docTagOther

def tag : DocM Unit := do
  let saved := (← get).checkpoint
  let word ← kind
  tryCatch (discard (nodeOf do
    bump
    tagBody word)) fun e => modify (failedTag saved e)

/-- The opener of a line, or a member of an alias that no alias comes before. -/
def lineStart : DocM Unit := do
  if ← sees .docContinueOr then
    aliasMember
  else
    bump

def lineBody : DocM Unit := do
  let kind ← kind
  if kind.isTag then
    tag
  else if kind = .docDescription then
    node .docDescription bump
  else if kind = .docTrivia then
    bump

def lineRest : DocM Unit := do
  unless ← sees .docLineEnd do
    modify fun p =>
      (p.report (.unexpectedInComment p.currentText) p.current.span).switchToDescription.bump

def line : DocM Unit := do
  lineStart
  lineBody
  lineRest

def lines : Nat → DocM Unit
  | 0 => pure ()
  | n + 1 => do
    line
    match (← get).nextLine? with
    | some p =>
      set p
      lines n
    | none => return

def parseComments (text : String) (comments : List Span) (log : EventLog) : EventLog :=
  match comments with
  | [] => log
  | first :: later =>
    match (lines comments.length).run (.ofLines text log first later) with
    | .ok _ p => p.log
    | .error _ p => p.log

end LuaAnalysis.Syntax.Doc
