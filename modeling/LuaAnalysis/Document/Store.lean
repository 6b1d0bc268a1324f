import LuaAnalysis.Document.DocMap
import LuaAnalysis.Document.Uri
import LuaAnalysis.Syntax.Grammar.Stat
import LuaAnalysis.Text.Lines

/-!
The open documents. A reference gets a number when it is first seen and keeps it, also while its
document is closed.
-/

namespace LuaAnalysis.Document

/-- An open document: its text with what follows from it. -/
structure Source where
  id : DocId
  uri : Uri
  text : String
  lines : Text.Lines
  tree : Syntax.Tree
deriving Repr, Inhabited

namespace Source

def ofText (id : DocId) (uri : Uri) (text : String) : Source :=
  ⟨id, uri, text, .ofText text, Syntax.parse text⟩

def path? (s : Source) : Option String := s.uri.filePath?

@[simp] theorem id_ofText (id : DocId) (uri : Uri) (text : String) :
    (ofText id uri text).id = id := rfl

@[simp] theorem uri_ofText (id : DocId) (uri : Uri) (text : String) :
    (ofText id uri text).uri = uri := rfl

@[simp] theorem text_ofText (id : DocId) (uri : Uri) (text : String) :
    (ofText id uri text).text = text := rfl

def fileName (s : Source) : String := (s.path?.bind Path.fileName?).getD s.uri.text

end Source

structure Store where
  /-- The references seen so far; the number of a document is its place here. -/
  uris : Array Uri := #[]
  sources : DocMap Source := .empty
deriving Repr, Inhabited

namespace Store

def lookup? (s : Store) (uri : Uri) : Option DocId := s.uris.findIdx? fun u => u.text == uri.text

def intern (s : Store) (uri : Uri) : Store × DocId :=
  match s.lookup? uri with
  | some id => (s, id)
  | none => ({ s with uris := s.uris.push uri }, s.uris.size)

def uri? (s : Store) (id : DocId) : Option Uri := s.uris[id]?

def setText (s : Store) (uri : Uri) (text : String) : Store × DocId :=
  let (s, id) := s.intern uri
  ({ s with sources := s.sources.insert id (.ofText id uri text) }, id)

def get? (s : Store) (id : DocId) : Option Source := s.sources.get? id

def remove (s : Store) (id : DocId) : Store := { s with sources := s.sources.erase id }

def ids (s : Store) : List DocId := s.sources.docs

theorem sources_intern (s : Store) (uri : Uri) : (s.intern uri).1.sources = s.sources := by
  unfold intern
  split <;> rfl

theorem get?_setText (s : Store) (uri : Uri) (text : String) (doc : DocId) :
    (s.setText uri text).1.get? doc =
      if doc = (s.setText uri text).2 then some (.ofText (s.setText uri text).2 uri text)
        else s.get? doc := by
  have hget : (s.setText uri text).1.get? doc = ((s.intern uri).1.sources.insert (s.intern uri).2
      (.ofText (s.intern uri).2 uri text)).get? doc := rfl
  rw [hget, sources_intern, DocMap.get?_insert]
  rfl

theorem get?_remove (s : Store) (id doc : DocId) :
    (s.remove id).get? doc = if doc = id then none else s.get? doc := DocMap.get?_erase _ _ _

end Store

end LuaAnalysis.Document
