namespace LuaAnalysis.StdLib

def basicLines : List String :=
  ["---@meta",
   "",
   "---@param ... any",
   "function print(...) end",
   "",
   "---@param v any",
   "---@return \"nil\"|\"number\"|\"string\"|\"boolean\"|\"table\"|\"function\"|\"thread\"|\"userdata\"",
   "function type(v) end",
   "",
   "---@param v any",
   "---@return string",
   "function tostring(v) end",
   "",
   "---@param e any",
   "---@param base? integer",
   "---@return number?",
   "function tonumber(e, base) end",
   "",
   "---@generic K, V",
   "---@param t table<K, V>",
   "---@return fun(t: table<K, V>, k?: K): K, V",
   "function pairs(t) end",
   "",
   "---@generic V",
   "---@param t V[]",
   "---@return fun(t: V[], i: integer): integer, V",
   "function ipairs(t) end",
   "",
   "---@param modname string",
   "---@return any",
   "function require(modname) end",
   "",
   "---@generic T",
   "---@param t T",
   "---@param metatable? table",
   "---@return T",
   "function setmetatable(t, metatable) end",
   "",
   "---@param t any",
   "---@return table?",
   "function getmetatable(t) end",
   "",
   "---@param index integer|\"#\"",
   "---@param ... any",
   "---@return any",
   "function select(index, ...) end",
   "",
   "---@param message any",
   "---@param level? integer",
   "function error(message, level) end",
   "",
   "---@generic T",
   "---@param v T",
   "---@param message? any",
   "---@return T",
   "function assert(v, message) end",
   "",
   "---@param f function",
   "---@param ... any",
   "---@return boolean success",
   "---@return any result",
   "function pcall(f, ...) end",
   "",
   "---@param t table",
   "---@param k any",
   "---@return any",
   "function rawget(t, k) end",
   "",
   "---@param t table",
   "---@param k any",
   "---@param v any",
   "---@return table",
   "function rawset(t, k, v) end",
   ""]

end LuaAnalysis.StdLib
