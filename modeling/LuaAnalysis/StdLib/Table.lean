namespace LuaAnalysis.StdLib

def tableLines : List String :=
  ["---@meta",
   "",
   "table = \x7b\x7d",
   "",
   "---@param list table",
   "---@param pos integer",
   "---@param value any",
   "---@overload fun(list: table, value: any)",
   "function table.insert(list, pos, value) end",
   "",
   "---@generic V",
   "---@param list V[]",
   "---@param pos? integer",
   "---@return V",
   "function table.remove(list, pos) end",
   "",
   "---@param list table",
   "---@param sep? string",
   "---@param i? integer",
   "---@param j? integer",
   "---@return string",
   "function table.concat(list, sep, i, j) end",
   "",
   "---@generic V",
   "---@param list V[]",
   "---@param comp? fun(a: V, b: V): boolean",
   "function table.sort(list, comp) end",
   "",
   "---@generic V",
   "---@param list V[]",
   "---@param i? integer",
   "---@param j? integer",
   "---@return ...V",
   "function table.unpack(list, i, j) end",
   "",
   "---@param ... any",
   "---@return table",
   "function table.pack(...) end",
   ""]

end LuaAnalysis.StdLib
