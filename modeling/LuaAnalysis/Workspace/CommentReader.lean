import LuaAnalysis.Report.Suppression
import LuaAnalysis.Settings.Basic
import LuaAnalysis.Text.Lines
import LuaAnalysis.Workspace.Member
import LuaAnalysis.Workspace.Signature
import LuaAnalysis.Workspace.TypeDecl
import LuaAnalysis.Workspace.TypeReader

/-!
What one comment says: the named types it defines, what it tells about the statement or field it
stands at, and which codes it switches off.
-/

namespace LuaAnalysis.Workspace

open Document LuaAnalysis.Types Scope Syntax Settings Report

/-- What a comment tells about the statement or field it stands at. -/
structure Attachment where
  /-- The class, interface or enum that the table behind the comment is. -/
  class? : Option String := none
  types : List Ty := []
  generics : List (String × Option Ty) := []
  params : List DocParam := []
  returns : List DocReturn := []
  overloads : List FuncType := []
  features : Features := {}
  visibility? : Option Visibility := none
  /-- Where the thing comes from. -/
  source? : Option String := none
  /-- Another name under which a member is known. -/
  mapping? : Option String := none
  /-- Whether the thing belongs to other versions of the language only. -/
  excluded : Bool := false
  description? : Option String := none
deriving Repr, Inhabited

def Attachment.describesFunction (a : Attachment) : Bool :=
  !a.params.isEmpty || !a.returns.isEmpty || !a.generics.isEmpty || !a.overloads.isEmpty ||
    a.features.isAsync || a.features.nodiscard || a.description?.isSome

/-- A class that fields and operators can be added to, with its generic parameters. -/
structure OpenClass where
  name : String
  generics : List String
deriving Repr, Inhabited

/-- All that a comment says. -/
structure CommentReading where
  attachment : Attachment := {}
  openClass? : Option OpenClass := none
  typeParts : List (String × TypePart) := []
  supers : List (String × Ty) := []
  fields : List Member := []
  operators : List Operator := []
  suppressions : List Suppression := []
  isMeta : Bool := false
deriving Repr, Inhabited

/-- What a reader of comments has before it. -/
structure CommentContext where
  doc : DocId
  tree : Tree
  lines : Text.Lines
  version : Version

namespace CommentContext

variable (c : CommentContext)

def descriptionText? (node : ElementId) : Option String := do
  let token ← c.tree.childToken? node .docDescription
  let text := Text.trim (c.tree.textOf token)
  if text.isEmpty then none else some text

def description? (node : ElementId) : Option String :=
  (c.tree.child? node .docDescription).bind c.descriptionText?

def genericParams (node : ElementId) : List (String × Option Ty) :=
  (c.tree.childrenOf node .docGenericParam).filterMap fun param =>
    (c.tree.nameText? param).map fun name =>
      (name, (c.tree.types param).head?.map (typeOf c.tree []))

def names (node : ElementId) : List String :=
  ((c.tree.childTokens node).filter fun token => c.tree.tokenKind? token ==
    some .name).map c.tree.textOf

/-- What an alias stands for: the union of all that is listed for it. -/
def aliasOrigin (tag : ElementId) (generics : List String) : Ty :=
  let members := (c.tree.childrenOf tag .docAliasMember).filterMap fun m => (c.tree.types m).head?
  .unionOf ((c.tree.types tag ++ members).map (typeOf c.tree generics))

def typeDecl? (tag : ElementId) (kind : TypeKind) : Option (OpenClass × TypePart × List Ty) := do
  let token ← c.tree.childToken? tag .name
  let generics := ((c.tree.child? tag .docGenericDeclList).map c.genericParams).getD []
  let names := generics.map (·.1)
  let part : TypePart :=
    { kind := kind
      span := c.tree.span token
      generics := generics
      aliasOrigin? := if kind == .alias then some (c.aliasOrigin tag names) else none
      enumBase? := if kind == .enum then (c.tree.types tag).head?.map (typeOf c.tree []) else none
      attributes := ((c.tree.child? tag .docAttribute).map c.names).getD []
      description? := c.description? tag
      isSome_aliasOrigin? := by cases kind <;> rfl }
  let supers := if kind == .classType || kind == .interface then
      match c.tree.child? tag .docSuperList with
      | some list => (c.tree.types list).map (typeOf c.tree names)
      | none => []
    else []
  pure (⟨c.tree.textOf token, names⟩, part, supers)

/-- The key of a field, where it stands, and the node of its type. A type in brackets is a key only
if it is a constant. -/
def fieldKey? (tag : ElementId) (generics : List String) : Option (MemberKey × Span × ElementId) :=
  let types := c.tree.types tag
  if c.tree.hasToken tag .leftBracket then do
    let key ← types.head?
    let value ← types[1]?
    match typeOf c.tree generics key with
    | .strConst name => some (.name name, c.tree.span key, value)
    | .intConst index => some (.integer index, c.tree.span key, value)
    | _ => none
  else do
    let name ← c.tree.childToken? tag .name
    let value ← types.head?
    some (.name (c.tree.textOf name), c.tree.span name, value)

def field? (tag : ElementId) (owner : String) (generics : List String) : Option Member := do
  let (key, span, value) ← c.fieldKey? tag generics
  let type := typeOf c.tree generics value
  pure
    { owner := .type owner
      key := key
      doc := c.doc
      span := span
      node := ⟨c.doc, tag⟩
      source := .docField
      type? := some (if c.tree.hasToken tag .docQuestion then type.nullable else type)
      visibility :=
        ((c.tree.child? tag .docVisibility).bind fun n => Visibility.ofWord? (c.tree.textOf n)).getD
          .publicAccess
      description? := c.description? tag }

def operator? (tag : ElementId) (owner : OpenClass) : Option Operator := do
  let kind ← (c.tree.nameText? tag).bind OperatorKind.ofName?
  let operands := match c.tree.child? tag .docTypeList with
    | some list => (c.tree.types list).map (typeOf c.tree owner.generics)
    | none => []
  pure ⟨owner.name, kind, operands, firstType c.tree owner.generics tag, c.tree.span tag⟩

def param? (tag : ElementId) (generics : List String) : Option DocParam :=
  (paramToken? c.tree tag).map fun token =>
    ⟨c.tree.textOf token, firstType c.tree generics tag, c.tree.hasToken tag .docQuestion,
      c.description? tag⟩

def returns (tag : ElementId) (generics : List String) : List DocReturn :=
  (c.tree.childrenOf tag .docNamedReturn).map fun ret =>
    ⟨c.tree.nameText? ret, firstType c.tree generics ret, c.description? tag⟩

def overload? (tag : ElementId) (generics : List String) : Option FuncType :=
  (c.tree.types tag).head?.bind fun node => (typeOf c.tree generics node).func?

def visibility? (tag : ElementId) : Option Visibility := do
  let token ← c.tree.childToken? tag .tagVisibility
  Visibility.ofWord? (String.ofList ((c.tree.textOf token).toList.dropWhile (· == '@')))

def versionFits? (node : ElementId) : Option Bool := do
  let token ← (c.tree.childTokens node).find? fun token =>
    c.tree.tokenKind? token != some .gt && c.tree.tokenKind? token != some .lt
  let wanted ← Version.ofDocText? (c.tree.textOf token)
  if c.tree.hasToken node .gt then some (c.version == wanted || c.version.isNewerThan wanted)
  else if c.tree.hasToken node .lt then some (c.version == wanted || c.version.isOlderThan wanted)
  else some (c.version == wanted)

def versionMatches (tag : ElementId) : Bool :=
  let answers := (c.tree.childrenOf tag .docVersion).filterMap c.versionFits?
  answers.isEmpty || answers.any id

def suppression? (tag : ElementId) : Option Suppression := do
  let action ← (c.tree.nameText? tag).bind SuppressionAction.ofWord?
  let codes := match c.tree.child? tag .docDiagnosticCodeList with
    | some list => (c.names list).filterMap Code.ofName?
    | none => []
  pure ⟨action, codes, c.lines.lineOf (c.tree.span tag).start⟩

def appendLine (text? : Option String) (line : String) : String :=
  match text? with
  | some text => if text.isEmpty then line else text ++ "\n" ++ line
  | none => line

def readTypeDecl (r : CommentReading) (tag : ElementId) (kind : TypeKind) : CommentReading :=
  match c.typeDecl? tag kind with
  | none => r
  | some (opened, part, supers) =>
    let r := { r with
      typeParts := r.typeParts ++ [(opened.name, part)]
      supers := r.supers ++ supers.map (opened.name, ·) }
    if kind == .alias then r
    else { r with attachment :=
      { r.attachment with class? := some opened.name }, openClass? := some opened }

def readTag (generics : List String) (r : CommentReading) (tag : ElementId) : CommentReading :=
  let a := r.attachment
  match c.tree.kind tag with
  | .docTagClass => c.readTypeDecl r tag .classType
  | .docTagInterface => c.readTypeDecl r tag .interface
  | .docTagEnum => c.readTypeDecl r tag .enum
  | .docTagAlias => c.readTypeDecl r tag .alias
  | .docTagField =>
    match r.openClass? with
    | some owner =>
      { r with fields := r.fields ++ (c.field? tag owner.name (owner.generics ++ generics)).toList }
    | none => r
  | .docTagOperator =>
    match r.openClass? with
    | some owner => { r with operators := r.operators ++ (c.operator? tag owner).toList }
    | none => r
  | .docTagParam =>
    { r with attachment := { a with params := a.params ++ (c.param? tag generics).toList } }
  | .docTagReturn =>
    { r with attachment := { a with returns := a.returns ++ c.returns tag generics } }
  | .docTagType =>
    { r with attachment :=
      { a with types := a.types ++ (c.tree.types tag).map (typeOf c.tree generics) } }
  | .docTagOverload =>
    { r with attachment :=
      { a with overloads := a.overloads ++ (c.overload? tag generics).toList } }
  | .docTagDeprecated =>
    { r with attachment := { a with features := { a.features with deprecated := true } } }
  | .docTagAsync =>
    { r with attachment := { a with features := { a.features with isAsync := true } } }
  | .docTagNodiscard =>
    { r with attachment := { a with features := { a.features with nodiscard := true } } }
  | .docTagVisibility => { r with attachment := { a with visibility? := c.visibility? tag } }
  | .docTagSource => { r with attachment := { a with source? := c.description? tag } }
  | .docTagMapping => { r with attachment := { a with mapping? := c.tree.nameText? tag } }
  | .docTagVersion => { r with attachment := { a with excluded := !c.versionMatches tag } }
  | .docTagMeta => { r with isMeta := true }
  | .docTagDiagnostic => { r with suppressions := r.suppressions ++ (c.suppression? tag).toList }
  | .docDescription =>
    match c.descriptionText? tag with
    | some text =>
      { r with attachment := { a with description? := some (appendLine a.description? text) } }
    | none => r
  | _ => r

def readComment (comment : ElementId) : CommentReading :=
  let generics := (c.tree.childrenOf comment .docTagGeneric).flatMap c.genericParams
  (c.tree.childNodes comment).foldl (c.readTag (generics.map (·.1))) { attachment :=
    { generics := generics } }

def attachedTo? (comment : ElementId) : Option ElementId :=
  match c.tree.parent? comment with
  | some parent => if (c.tree.kind parent).isStat || c.tree.kind parent == .tableField then
      some parent else none
  | none => none

end CommentContext

end LuaAnalysis.Workspace
