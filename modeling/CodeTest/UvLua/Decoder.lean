import CodeTest.Foundations.Binary64

/-!
# Packing values of Lua

`lua_defparser_serial` and `lua_defparser_deserial` of `lua-decoder.c`, which scripts call as `pack`
and `unpack`. A value is a tree: a table is the list of its entries, in the order of `lua_next`
where it is packed, and in the order of their creation where it is unpacked. The stack of Lua is a
list with the top first.

What has no result is an error of Lua, memory that is read beyond the end of the string, and the
conversion of a double that its integer type does not hold. Functions and userdata, which cannot be
packed, are left out, and so are the limits of the stack of C and of memory. The numbers of bytes
are integers, and the stack of Lua is a list without bound: `InRange` says when these are the C ints
and the stack of the code.
-/

namespace CodeTest.UvLua

mutual

/-- A value. -/
inductive LuaData
  | nil
  | boolean (b : Bool)
  | number (d : Binary64)
  | string (s : List UInt8)
  | table (entries : LuaEntries)
deriving DecidableEq

/-- The entries of a table. -/
inductive LuaEntries
  | none
  | entry (k v : LuaData) (rest : LuaEntries)
deriving DecidableEq

end

namespace Decoder

/-- `LUA_TNIL` and the other tags. -/
def tnil : UInt8 := 0

def tboolean : UInt8 := 1

def tnumber : UInt8 := 3

def tstring : UInt8 := 4

def ttable : UInt8 := 5

/-- `_LUA_TENDDATA`. -/
def tenddata : UInt8 := 0xFF

/-- `SWAP_U32`. -/
def swapU32 (x : UInt32) : UInt32 :=
  ((x &&& 0xff000000) >>> 24) ||| ((x &&& 0x00ff0000) >>> 8) ||| ((x &&& 0x0000ff00) <<< 8) |||
    ((x &&& 0x000000ff) <<< 24)

/-! ## Packing -/

/-- `luadef_write_length`. -/
def writeLength (val : ℕ) : List UInt8 :=
  let val := val &&& 0x1FFFFFFF
  if val < 0x80 then [UInt8.ofNat val]
  else if val < 0x4000 then
    [UInt8.ofNat ((val >>> 7 &&& 0x7f) ||| 0x80), UInt8.ofNat (val &&& 0x7f)]
  else if val < 0x200000 then
    [UInt8.ofNat ((val >>> 14 &&& 0x7f) ||| 0x80), UInt8.ofNat ((val >>> 7 &&& 0x7f) ||| 0x80),
      UInt8.ofNat (val &&& 0x7f)]
  else
    [UInt8.ofNat ((val >>> 22 &&& 0x7f) ||| 0x80), UInt8.ofNat ((val >>> 15 &&& 0x7f) ||| 0x80),
      UInt8.ofNat ((val >>> 8 &&& 0x7f) ||| 0x80), UInt8.ofNat (val &&& 0xff)]

mutual

/-- `lua_def_serialone`. -/
def serialone : LuaData → List UInt8
  | .boolean b => [tboolean, if b then 1 else 0]
  | .string s => tstring :: (writeLength s.length ++ s)
  | .number d => tnumber :: d.bytes
  | .table entries => ttable :: serialtable entries
  | .nil => [tnil]

/-- `_lua_defparser_serialtable`. -/
def serialtable : LuaEntries → List UInt8
  | .none => [tenddata]
  | .entry k v rest => serialone k ++ (serialone v ++ serialtable rest)

end

/-- What follows the size. -/
def payload (values : List LuaData) : List UInt8 := values.flatMap serialone ++ [tenddata]

/-- `lua_defparser_serial`. The size is stored as it lies in memory. -/
def serial (values : List LuaData) : List UInt8 :=
  littleEndian 4 (swapU32 (UInt32.ofNat (payload values).length)).toNat ++ payload values

/-! ## What the integers and the stack hold -/

mutual

/-- How deep tables are nested in a value. -/
def depth : LuaData → ℕ
  | .table entries => entriesDepth entries + 1
  | _ => 0

/-- How deep tables are nested in entries. -/
def entriesDepth : LuaEntries → ℕ
  | .none => 0
  | .entry k v rest => max (max (depth k) (depth v)) (entriesDepth rest)

end

/-- `LUAI_MAXSTACK`, the number of slots that the stack of Lua may have. -/
def luaiMaxstack : ℕ := 1000000

/-- The slots that packing and unpacking need at most: one for each value, two for each level of
tables, and the ten that `lua_checkstack(L, 5)` wants to be free. -/
def slots (values : List LuaData) : ℕ :=
  values.length + 2 * (values.map depth).foldr max 0 + 10

/-- Where `inUse` slots of the stack are in use before, the C ints hold the numbers of bytes and the
stack holds the values. -/
structure InRange (inUse : ℕ) (values : List LuaData) : Prop where
  bytes : (payload values).length < 2 ^ 31
  stack : inUse + slots values ≤ luaiMaxstack

/-! ## Unpacking -/

/-- The end of `luadef_read_length`: the sign of a number of 29 bits is extended. -/
def signExtend (acc : ℕ) : ℤ :=
  let acc := BitVec.ofNat 32 acc
  let mask := 1#32 <<< 28
  (-(acc &&& mask) ||| acc).toInt

/-- `luadef_read_length`: the number and how many bytes it takes. -/
def readLength (bytes : List UInt8) : Option (ℤ × ℕ) := do
  let acc ← bytes[0]?
  if acc < 128 then return (acc.toNat, 1)
  else
    let acc := (acc.toNat &&& 0x7f) <<< 7
    let tmp ← bytes[1]?
    if tmp < 128 then return (signExtend (acc ||| tmp.toNat), 2)
    else
      let acc := (acc ||| (tmp.toNat &&& 0x7f)) <<< 7
      let tmp ← bytes[2]?
      if tmp < 128 then return (signExtend (acc ||| tmp.toNat), 3)
      else
        let acc := (acc ||| (tmp.toNat &&& 0x7f)) <<< 8
        let tmp ← bytes[3]?
        return (signExtend (acc ||| tmp.toNat), 4)

def intMax : ℚ := 2 ^ 31 - 1

def intMin : ℚ := -2 ^ 31

def uintMax : ℚ := 2 ^ 32 - 1

/-- `(int64_t)d`. -/
def toInt64 (d : Binary64) : Option ℤ :=
  let n := d.value.num.tdiv d.value.den
  if d.Finite ∧ -2 ^ 63 ≤ n ∧ n < 2 ^ 63 then some n else none

/-- The number that the branch for numbers of `lua_pushdata` pushes, if any. The difference of the
doubles is exact. -/
def numberPushed (d : Binary64) : Option (Option Binary64) := do
  let n ← toInt64 d
  if ¬ 0 < d.value - n then
    if d.value ≤ intMax ∧ intMin ≤ d.value then return some (.ofInt n)
    else if d.value ≤ uintMax ∧ 0 ≤ d.value then return some (.ofInt n)
    else return none
  else return some d

/-- The equality of keys. A table that is a key is a new one; numbers are never NaN or -0 here. -/
def sameKey : LuaData → LuaData → Bool
  | .table _, _ => false
  | _, .table _ => false
  | k, k' => k = k'

/-- `t[k] = v`, in a table without a metatable. -/
def setEntry (k v : LuaData) : LuaEntries → LuaEntries
  | .none => if v = .nil then .none else .entry k v .none
  | .entry k' v' rest =>
    if sameKey k' k then
      if v = .nil then rest else .entry k' v rest
    else .entry k' v' (setEntry k v rest)

/-- `lua_settable(L, -3)`. -/
def settable : List LuaData → Option (List LuaData)
  | v :: k :: .table entries :: L =>
    if k = .nil then none else some (.table (setEntry k v entries) :: L)
  | _ => none

mutual

/-- `lua_pushdata`, with a bound on its depth: what it returns, a C int for fewer than `2 ^ 31`
bytes, and the stack. -/
def pushdata : ℕ → List LuaData → List UInt8 → Option (ℤ × List LuaData)
  | 0, _, _ => none
  | fuel + 1, L, buf => do
    let c ← buf[0]?
    let buffer := buf.drop 1
    if c = tstring then
      let (lstr, used) ← readLength buffer
      let str := buffer.drop used
      if 0 ≤ lstr ∧ lstr ≤ str.length then
        return (1 + used + lstr, .string (str.take lstr.toNat) :: L)
      else none
    else if c = tboolean then
      let b ← buffer[0]?
      return (2, .boolean (b ≠ 0) :: L)
    else if c = tnumber then
      if 8 ≤ buffer.length then
        match ← numberPushed (.ofBytes (buffer.take 8)) with
        | some d => return (9, .number d :: L)
        | none => return (9, L)
      else none
    else if c = tnil then return (1, .nil :: L)
    else if c = ttable then
      let (used, L) ← pushtable fuel (.table .none :: L) buffer
      if used = -1 then return (-1, L) else return (1 + used, L)
    else return (-1, L)

/-- The loop of `lua_pushtable`, on a stack with the new table: what it returns, counted from
`buffer`, a C int for fewer than `2 ^ 31` bytes. -/
def pushtable : ℕ → List LuaData → List UInt8 → Option (ℤ × List LuaData)
  | 0, _, _ => none
  | fuel + 1, L, buffer => do
    let c ← buffer[0]?
    if c = tenddata then return (1, L)
    else
      let (used, L) ← pushdata fuel L buffer
      if 0 < used then
        let buffer := buffer.drop used.toNat
        let (used', L) ← pushdata fuel L buffer
        if 0 < used' then
          let L ← settable L
          let (rest, L) ← pushtable fuel L (buffer.drop used'.toNat)
          if rest = -1 then return (-1, L) else return (used + used' + rest, L)
        else return (-1, L)
      else return (-1, L)

end

/-- The loop of `lua_defparser_deserial`: the number `i` and the stack. -/
def deserialLoop : ℕ → ℕ → List LuaData → List UInt8 → Option (ℕ × List LuaData)
  | 0, _, _, _ => none
  | fuel + 1, i, L, s => do
    let c ← s[0]?
    if c = tenddata then return (i, L)
    else
      let (used, L) ← pushdata fuel L s
      if 0 < used then deserialLoop fuel (i + 1) L (s.drop used.toNat) else none

/-- `lua_defparser_deserial`, on a stack with its argument: the results are the `i` values at the
top, the first one lowest. A string of Lua ends with a zero byte that does not belong to it. -/
def deserial (s : List UInt8) : Option (List LuaData) :=
  if 5 < s.length ∧ 1 < ofLittleEndian (s.take 4) then do
    let (i, L) ← deserialLoop s.length 0 [.string s] (s.drop 4 ++ [0])
    return (L.take i).reverse
  else some []

end Decoder

end CodeTest.UvLua
