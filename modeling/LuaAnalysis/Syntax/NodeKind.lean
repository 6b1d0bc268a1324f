namespace LuaAnalysis.Syntax

inductive NodeKind where
  -- a node that was opened and given up
  | absent
  | chunk | block
  -- statements
  | emptyStat | localStat | assignStat | callExprStat | funcStat | localFuncStat | ifStat
  | elseIfClause | elseClause | whileStat | doStat | forStat | forRangeStat | repeatStat
  | returnStat | breakStat | gotoStat | labelStat
  -- expressions
  | nameExpr | indexExpr | callExpr | parenExpr | literalExpr | tableExpr | closureExpr
  | unaryExpr | binaryExpr
  -- other nodes of code
  | localName | attribute | paramList | paramName | callArgList | tableField
  -- comments and annotations
  | comment | docDescription | docTagClass | docTagEnum | docTagInterface | docTagAlias
  | docTagField | docTagParam | docTagReturn | docTagType | docTagGeneric | docTagOverload
  | docTagDeprecated | docTagAsync | docTagNodiscard | docTagDiagnostic | docTagSource
  | docTagMapping
  | docTagVersion | docTagVisibility | docTagMeta | docTagOperator | docTagOther
  -- parts of annotations
  | docGenericDeclList | docGenericParam | docSuperList | docAttribute | docVisibility
  | docTypeList | docNamedReturn | docAliasMember | docDiagnosticCodeList | docVersion
  | docObjectField | docFuncParam
  -- types of annotations
  | typeName | typeArray | typeUnion | typeNullable | typeTuple | typeGeneric | typeFun
  | typeObject | typeLiteral | typeVariadic | typeParen
deriving DecidableEq, Repr, Inhabited, Hashable

namespace NodeKind

def label : NodeKind → String
  | .absent => "None"
  | .chunk => "Chunk"
  | .block => "Block"
  | .emptyStat => "EmptyStat"
  | .localStat => "LocalStat"
  | .assignStat => "AssignStat"
  | .callExprStat => "CallExprStat"
  | .funcStat => "FuncStat"
  | .localFuncStat => "LocalFuncStat"
  | .ifStat => "IfStat"
  | .elseIfClause => "ElseIfClause"
  | .elseClause => "ElseClause"
  | .whileStat => "WhileStat"
  | .doStat => "DoStat"
  | .forStat => "ForStat"
  | .forRangeStat => "ForRangeStat"
  | .repeatStat => "RepeatStat"
  | .returnStat => "ReturnStat"
  | .breakStat => "BreakStat"
  | .gotoStat => "GotoStat"
  | .labelStat => "LabelStat"
  | .nameExpr => "NameExpr"
  | .indexExpr => "IndexExpr"
  | .callExpr => "CallExpr"
  | .parenExpr => "ParenExpr"
  | .literalExpr => "LiteralExpr"
  | .tableExpr => "TableExpr"
  | .closureExpr => "ClosureExpr"
  | .unaryExpr => "UnaryExpr"
  | .binaryExpr => "BinaryExpr"
  | .localName => "LocalName"
  | .attribute => "Attribute"
  | .paramList => "ParamList"
  | .paramName => "ParamName"
  | .callArgList => "CallArgList"
  | .tableField => "TableField"
  | .comment => "Comment"
  | .docDescription => "DocDescription"
  | .docTagClass => "DocTagClass"
  | .docTagEnum => "DocTagEnum"
  | .docTagInterface => "DocTagInterface"
  | .docTagAlias => "DocTagAlias"
  | .docTagField => "DocTagField"
  | .docTagParam => "DocTagParam"
  | .docTagReturn => "DocTagReturn"
  | .docTagType => "DocTagType"
  | .docTagGeneric => "DocTagGeneric"
  | .docTagOverload => "DocTagOverload"
  | .docTagDeprecated => "DocTagDeprecated"
  | .docTagAsync => "DocTagAsync"
  | .docTagNodiscard => "DocTagNodiscard"
  | .docTagDiagnostic => "DocTagDiagnostic"
  | .docTagSource => "DocTagSource"
  | .docTagMapping => "DocTagMapping"
  | .docTagVersion => "DocTagVersion"
  | .docTagVisibility => "DocTagVisibility"
  | .docTagMeta => "DocTagMeta"
  | .docTagOperator => "DocTagOperator"
  | .docTagOther => "DocTagOther"
  | .docGenericDeclList => "DocGenericDeclList"
  | .docGenericParam => "DocGenericParam"
  | .docSuperList => "DocSuperList"
  | .docAttribute => "DocAttribute"
  | .docVisibility => "DocVisibility"
  | .docTypeList => "DocTypeList"
  | .docNamedReturn => "DocNamedReturn"
  | .docAliasMember => "DocAliasMember"
  | .docDiagnosticCodeList => "DocDiagnosticCodeList"
  | .docVersion => "DocVersion"
  | .docObjectField => "DocObjectField"
  | .docFuncParam => "DocFuncParam"
  | .typeName => "TypeName"
  | .typeArray => "TypeArray"
  | .typeUnion => "TypeUnion"
  | .typeNullable => "TypeNullable"
  | .typeTuple => "TypeTuple"
  | .typeGeneric => "TypeGeneric"
  | .typeFun => "TypeFun"
  | .typeObject => "TypeObject"
  | .typeLiteral => "TypeLiteral"
  | .typeVariadic => "TypeVariadic"
  | .typeParen => "TypeParen"

def all : List NodeKind :=
  [.absent, .chunk, .block, .emptyStat, .localStat, .assignStat, .callExprStat,
   .funcStat, .localFuncStat, .ifStat, .elseIfClause, .elseClause, .whileStat, .doStat,
   .forStat, .forRangeStat, .repeatStat, .returnStat, .breakStat, .gotoStat, .labelStat,
   .nameExpr, .indexExpr, .callExpr, .parenExpr, .literalExpr, .tableExpr, .closureExpr,
   .unaryExpr, .binaryExpr, .localName, .attribute, .paramList, .paramName, .callArgList,
   .tableField, .comment, .docDescription, .docTagClass, .docTagEnum, .docTagInterface,
   .docTagAlias,
   .docTagField, .docTagParam, .docTagReturn, .docTagType, .docTagGeneric, .docTagOverload,
   .docTagDeprecated,
   .docTagAsync, .docTagNodiscard, .docTagDiagnostic, .docTagSource, .docTagMapping, .docTagVersion,
   .docTagVisibility,
   .docTagMeta, .docTagOperator, .docTagOther, .docGenericDeclList, .docGenericParam, .docSuperList,
   .docAttribute,
   .docVisibility, .docTypeList, .docNamedReturn, .docAliasMember, .docDiagnosticCodeList,
   .docVersion, .docObjectField,
   .docFuncParam, .typeName, .typeArray, .typeUnion, .typeNullable, .typeTuple, .typeGeneric,
   .typeFun, .typeObject, .typeLiteral, .typeVariadic, .typeParen]

def ofLabel? (s : String) : Option NodeKind := all.find? fun k => k.label == s

def isStat : NodeKind → Bool
  | .emptyStat | .localStat | .assignStat | .callExprStat | .funcStat | .localFuncStat
  | .ifStat | .whileStat | .doStat | .forStat | .forRangeStat | .repeatStat
  | .returnStat | .breakStat | .gotoStat | .labelStat => true
  | _ => false

def isExpr : NodeKind → Bool
  | .nameExpr | .indexExpr | .callExpr | .parenExpr | .literalExpr | .tableExpr
  | .closureExpr | .unaryExpr | .binaryExpr => true
  | _ => false

def isTag : NodeKind → Bool
  | .docTagClass | .docTagEnum | .docTagInterface | .docTagAlias | .docTagField | .docTagParam
  | .docTagReturn | .docTagType | .docTagGeneric | .docTagOverload | .docTagDeprecated
  | .docTagAsync
  | .docTagNodiscard | .docTagDiagnostic | .docTagSource | .docTagMapping | .docTagVersion
  | .docTagVisibility
  | .docTagMeta | .docTagOperator | .docTagOther => true
  | _ => false

def isType : NodeKind → Bool
  | .typeName | .typeArray | .typeUnion | .typeNullable | .typeTuple | .typeGeneric
  | .typeFun | .typeObject | .typeLiteral | .typeVariadic | .typeParen => true
  | _ => false

end NodeKind

end LuaAnalysis.Syntax
