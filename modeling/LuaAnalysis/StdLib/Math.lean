namespace LuaAnalysis.StdLib

def mathLines : List String :=
  ["---@meta",
   "",
   "math = \x7b\x7d",
   "",
   "---@type number",
   "math.pi = 3.1415926535898",
   "",
   "---@type number",
   "math.huge = 1 / 0",
   "",
   "---@type integer",
   "math.maxinteger = 9223372036854775807",
   "",
   "---@type integer",
   "math.mininteger = -9223372036854775807 - 1",
   "",
   "---@generic N: number",
   "---@param x N",
   "---@return N",
   "function math.abs(x) end",
   "",
   "---@param x number",
   "---@return integer",
   "function math.floor(x) end",
   "",
   "---@param x number",
   "---@return integer",
   "function math.ceil(x) end",
   "",
   "---@param x number",
   "---@return number",
   "function math.sqrt(x) end",
   "",
   "---@generic N: number",
   "---@param x N",
   "---@param ... N",
   "---@return N",
   "function math.max(x, ...) end",
   "",
   "---@generic N: number",
   "---@param x N",
   "---@param ... N",
   "---@return N",
   "function math.min(x, ...) end",
   "",
   "---@param m? integer",
   "---@param n? integer",
   "---@return number",
   "function math.random(m, n) end",
   "",
   "---@param x any",
   "---@return \"integer\"|\"float\"|nil",
   "function math.type(x) end",
   "",
   "---@param x number",
   "---@return integer?",
   "function math.tointeger(x) end",
   ""]

end LuaAnalysis.StdLib
