import LuaAnalysis.Text.Span

namespace LuaAnalysis.Workspace

/-- How a name is used. -/
inductive ReferenceKind where
  | read | write | field | typeName
deriving DecidableEq, Repr, Inhabited

def ReferenceKind.label : ReferenceKind → String
  | .read => "Read"
  | .write => "Write"
  | .field => "Field"
  | .typeName => "TypeName"

structure Reference where
  span : Span
  kind : ReferenceKind
deriving DecidableEq, Repr, Inhabited

end LuaAnalysis.Workspace
