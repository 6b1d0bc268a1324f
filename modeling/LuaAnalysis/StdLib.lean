import LuaAnalysis.Document.Uri
import LuaAnalysis.StdLib.Basic
import LuaAnalysis.StdLib.Math
import LuaAnalysis.StdLib.Table
import LuaAnalysis.StdLib.Text

namespace LuaAnalysis.StdLib

open Document

def scheme : String := "lua-std"

def isStdUri (uri : Uri) : Bool := scheme.toList.isPrefixOf uri.text.toList

def texts : List (String × String) :=
  [("basic.lua", "\n".intercalate basicLines), ("math.lua", "\n".intercalate mathLines),
   ("string.lua", "\n".intercalate stringLines), ("table.lua", "\n".intercalate tableLines)]

def documents : List (Uri × String) :=
  texts.filterMap fun (name, text) => (Uri.parse? (scheme ++ ":///" ++ name)).map (·, text)

end LuaAnalysis.StdLib
