/-!
Identities across documents. A document is known by a number, an element by its document and its
index in that document's tree, and a declaration by where its name starts.
-/

namespace LuaAnalysis.Document

abbrev DocId := Nat

/-- An element of a document's tree. -/
structure NodeRef where
  doc : DocId
  element : Nat
deriving DecidableEq, Repr, Inhabited, Hashable

/-- A declaration, by where its name starts. -/
structure DeclId where
  doc : DocId
  position : Nat
deriving DecidableEq, Repr, Inhabited, Hashable

end LuaAnalysis.Document
