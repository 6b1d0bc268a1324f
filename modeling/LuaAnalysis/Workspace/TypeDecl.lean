import LuaAnalysis.Document.DocMap
import LuaAnalysis.Text.Span
import LuaAnalysis.Types.Ty

/-!
Named types, which may be defined piece by piece in several documents. The first piece of the least
document says what the type is.
-/

namespace LuaAnalysis.Workspace

open Document LuaAnalysis.Types

inductive TypeKind where
  | classType | enum | alias | interface
deriving DecidableEq, Repr, Inhabited

def TypeKind.label : TypeKind → String
  | .classType => "Class"
  | .enum => "Enum"
  | .alias => "Alias"
  | .interface => "Interface"

/-- What one annotation says about a named type. -/
structure TypePart where
  kind : TypeKind
  /-- Where the name stands. -/
  span : Span
  generics : List (String × Option Ty) := []
  /-- What an alias stands for. -/
  aliasOrigin? : Option Ty := none
  enumBase? : Option Ty := none
  attributes : List String := []
  description? : Option String := none
  /-- Aliases stand for a type, and nothing else does. -/
  isSome_aliasOrigin? : aliasOrigin?.isSome = (kind == .alias) := by rfl
deriving Repr

instance : Inhabited TypePart := ⟨{ kind := .classType, span := default }⟩

structure TypeDecl where
  name : String
  /-- The pieces of each document, in the order of the text. -/
  pieces : DocMap (List TypePart)
deriving Repr, Inhabited

namespace TypeDecl

def parts (d : TypeDecl) : List (DocId × TypePart) :=
  d.pieces.entries.flatMap fun (doc, parts) => parts.map (doc, ·)

def mainDoc? (d : TypeDecl) : Option DocId := d.pieces.entries.head?.map (·.1)

def mainPart? (d : TypeDecl) : Option TypePart := d.pieces.entries.head?.bind (·.2.head?)

def kind (d : TypeDecl) : TypeKind := (d.mainPart?.map (·.kind)).getD .classType

def isAlias (d : TypeDecl) : Bool := d.kind == .alias

def isEnum (d : TypeDecl) : Bool := d.kind == .enum

def generics (d : TypeDecl) : List (String × Option Ty) := (d.mainPart?.map (·.generics)).getD []

def genericNames (d : TypeDecl) : List String := d.generics.map (·.1)

def aliasOrigin? (d : TypeDecl) : Option Ty := d.mainPart?.bind (·.aliasOrigin?)

def enumBase? (d : TypeDecl) : Option Ty := d.mainPart?.bind (·.enumBase?)

def hasAttribute (d : TypeDecl) (name : String) : Bool :=
  d.parts.any fun p => p.2.attributes.contains name

theorem isSome_aliasOrigin? (d : TypeDecl) : d.aliasOrigin?.isSome = d.isAlias := by
  rw [aliasOrigin?, isAlias, kind]
  cases d.mainPart? with
  | none => rfl
  | some part => simpa using part.isSome_aliasOrigin?

def documents (d : TypeDecl) : List DocId := d.pieces.docs

end TypeDecl

end LuaAnalysis.Workspace
