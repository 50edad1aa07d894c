import CodeTest.UvLua.Decoder

/-!
# The decoder of a stream

`lua_default_decoder` of `lua-decoder.c`, which gets the data of a connection as they come and calls
the script back with the values of the messages in them. A message is what `lua_defparser_serial`
makes.

What has no result is an error of Lua, memory that is read beyond the end of the data, and a loop
that never ends. The results of the callback are left out. The offsets are C ints, and the values of
a call lie on the stack of Lua together; here both are without bound. A `uv_read` gives at most
20480 bytes, so data that are not kept are far below the bounds. What is kept grows with every
piece: `Holdable` says that it is below 2³¹ bytes, and that the stack has room for the values.
-/

namespace CodeTest.UvLua

open Decoder (tenddata pushdata swapU32)

/-- `_PST_START` and the other states. -/
inductive Pst
  | start
  | dataStart
  | errorData
deriving DecidableEq

structure StreamDecoder where
  mem : List UInt8
  offset : ℕ
  st : Pst
  size : UInt32

namespace StreamDecoder

/-- `defaultdecoder_create`. -/
def create : StreamDecoder where
  mem := []
  offset := 0
  st := .start
  size := 0

/-- The loop of `lua_defparser_push` over the values of a message: how many bytes they take, or
nothing for an error, and the stack. -/
def pushValues : ℕ → List LuaData → List UInt8 → Option (Option ℕ × List LuaData)
  | 0, _, _ => none
  | _ + 1, L, [] => some (some 0, L)
  | fuel + 1, L, c :: buf =>
    if c = tenddata then some (some 0, L)
    else do
      let (ret, L) ← pushdata fuel L (c :: buf)
      if ret < 0 then return (none, L)
      else
        let (used, L) ← pushValues fuel L ((c :: buf).drop ret.toNat)
        return (used.map (ret.toNat + ·), L)

/-- The loop of `lua_defparser_push`, with a bound on its turns: what it returns, the decoder and
the stack. A turn that changes nothing is repeated for ever. -/
def pushLoop (buf : List UInt8) :
    ℕ → ℕ → StreamDecoder → List LuaData → Option (ℤ × StreamDecoder × List LuaData)
  | 0, _, _, _ => none
  | fuel + 1, p, d, L =>
    if p < buf.length then
      match d.st with
      | .start =>
        if p + 4 ≤ buf.length then
          let size := swapU32 (UInt32.ofNat (ofLittleEndian ((buf.drop p).take 4)))
          pushLoop buf fuel (p + 4) { d with size, st := .dataStart } L
        else some (p, d, L)
      | .dataStart =>
        -- The size is compared with all of the data, not with what is left of them.
        if d.size.toNat ≤ buf.length then do
          let (used, L) ← pushValues (buf.length + 1) L (buf.drop p)
          match used with
          | none => return (-1, { d with st := .errorData }, L)
          | some used => pushLoop buf fuel (p + used + 1) { d with st := .start } L
        else pushLoop buf fuel p d L
      | .errorData => pushLoop buf fuel p d L
    else some (p, d, L)

/-- `lua_defparser_push`. A loop that ends goes on by a byte in every turn. What is returned is a C
int for fewer than 2³¹ bytes. -/
def push (d : StreamDecoder) (L : List LuaData) (buf : List UInt8) :
    Option (ℤ × StreamDecoder × List LuaData) :=
  pushLoop buf (buf.length + 1) 0 d L

/-- The loop of `lua_default_decoder`, from `offset` on, with a bound on its turns: the values that
the callback is called with, and the decoder. `kept` says that the data are those of `mem`, and
`called` that the callback, which leaves the stack when it is called, has been called. `used` and
`offset` are C ints for fewer than 2³¹ bytes. -/
def decoderLoop (kept : Bool) (data : List UInt8) : ℕ → ℕ → Bool → StreamDecoder →
    List LuaData → Option (List (List LuaData) × StreamDecoder)
  | 0, _, _, _, _ => none
  | fuel + 1, offset, called, d, L =>
    if offset < data.length then do
      let (used, d, L) ← push d L (data.drop offset)
      if 0 < used then
        let offset := offset + used.toNat
        if d.st = .start then
          if called then none
          else
            let (calls, d) ← decoderLoop kept data fuel offset true d []
            return (L.reverse :: calls, d)
        else decoderLoop kept data fuel offset called d L
      else if offset < data.length then
        if kept then return ([], { d with offset })
        else return ([], { d with mem := d.mem ++ data.drop offset, offset := 0 })
      else return ([], { d with mem := [], offset := 0 })
    else some ([], d)

/-- `lua_default_decoder`. -/
def decode (d : StreamDecoder) (data : List UInt8) :
    Option (List (List LuaData) × StreamDecoder) :=
  if d.offset < d.mem.length then
    let mem := d.mem ++ data
    decoderLoop true mem (mem.length + 1) d.offset false { d with mem } []
  else decoderLoop false data (data.length + 1) 0 false d []

/-- A run over the pieces of a stream. -/
def decodeAll : StreamDecoder → List (List UInt8) → Option (List (List LuaData) × StreamDecoder)
  | d, [] => some ([], d)
  | d, data :: rest => do
    let (calls, d) ← decode d data
    let (calls', d) ← decodeAll d rest
    return (calls ++ calls', d)

end StreamDecoder

end CodeTest.UvLua
