namespace LuaAnalysis.StdLib

def stringLines : List String :=
  ["---@meta",
   "",
   "string = \x7b\x7d",
   "",
   "---@param s string",
   "---@return integer",
   "function string.len(s) end",
   "",
   "---@param s string",
   "---@return string",
   "function string.upper(s) end",
   "",
   "---@param s string",
   "---@return string",
   "function string.lower(s) end",
   "",
   "---@param s string",
   "---@param n integer",
   "---@param sep? string",
   "---@return string",
   "function string.rep(s, n, sep) end",
   "",
   "---@param s string",
   "---@param i integer",
   "---@param j? integer",
   "---@return string",
   "function string.sub(s, i, j) end",
   "",
   "---@param s string",
   "---@return string",
   "function string.reverse(s) end",
   "",
   "---@param s string",
   "---@param i? integer",
   "---@param j? integer",
   "---@return ...integer",
   "function string.byte(s, i, j) end",
   "",
   "---@param ... integer",
   "---@return string",
   "function string.char(...) end",
   "",
   "---@param formatstring string",
   "---@param ... any",
   "---@return string",
   "function string.format(formatstring, ...) end",
   "",
   "---@param s string",
   "---@param pattern string",
   "---@param init? integer",
   "---@param plain? boolean",
   "---@return integer? start",
   "---@return integer? finish",
   "function string.find(s, pattern, init, plain) end",
   "",
   "---@param s string",
   "---@param pattern string",
   "---@param init? integer",
   "---@return ...string",
   "function string.match(s, pattern, init) end",
   "",
   "---@param s string",
   "---@param pattern string",
   "---@return fun(): string",
   "function string.gmatch(s, pattern) end",
   "",
   "---@param s string",
   "---@param pattern string",
   "---@param repl string|table|function",
   "---@param n? integer",
   "---@return string",
   "---@return integer count",
   "function string.gsub(s, pattern, repl, n) end",
   ""]

end LuaAnalysis.StdLib
