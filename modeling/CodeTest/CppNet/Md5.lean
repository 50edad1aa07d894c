import CodeTest.Foundations.LittleEndian

/-!
# MD5

`md5.cpp`, which the two ends of the file transfer use to compare the file that was sent with the
file that came. The digest is computed piece by piece: `MD5_CTX` has the state after the whole
blocks so far, the bytes after these and the number of bits. What `MD5Init` leaves in the buffer is
a parameter. The words of a block are read and written in `littleEndian` order by `MD5Decode` and
`MD5Encode`.

Pieces of 2³² - 64 bytes or more, with which the counter of `MD5Update` wraps, are left out.
-/

namespace CodeTest.CppNet.Md5

/-- The four words of `state`. -/
structure Words where
  a : UInt32
  b : UInt32
  c : UInt32
  d : UInt32
deriving DecidableEq

/-- `MD5_CTX`. -/
structure Ctx where
  count₀ : UInt32
  count₁ : UInt32
  state : Words
  buffer : List UInt8

/-! ## A block -/

/-- `F` and the other functions of the rounds. -/
def roundF (x y z : UInt32) : UInt32 := (x &&& y) ||| (~~~x &&& z)

def roundG (x y z : UInt32) : UInt32 := (x &&& z) ||| (y &&& ~~~z)

def roundH (x y z : UInt32) : UInt32 := x ^^^ y ^^^ z

def roundI (x y z : UInt32) : UInt32 := y ^^^ (x ||| ~~~z)

/-- `ROTATE_LEFT`. -/
def rotateLeft (x n : UInt32) : UInt32 := (x <<< n) ||| (x >>> (32 - n))

/-- What `FF`, `GG`, `HH` and `II` store in `a`. -/
def operation (round : UInt32 → UInt32 → UInt32 → UInt32) (a b c d x s ac : UInt32) : UInt32 :=
  rotateLeft (a + (round b c d + x + ac)) s + b

def ff := operation roundF

def gg := operation roundG

def hh := operation roundH

def ii := operation roundI

/-- The operations of `MD5Transform`, with the index of the word, the shift and the constant. -/
def operations :
    List ((UInt32 → UInt32 → UInt32 → UInt32 → UInt32 → UInt32 → UInt32 → UInt32) × ℕ × UInt32 ×
      UInt32) := [
  (ff, 0, 7, 0xd76aa478), (ff, 1, 12, 0xe8c7b756), (ff, 2, 17, 0x242070db),
  (ff, 3, 22, 0xc1bdceee), (ff, 4, 7, 0xf57c0faf), (ff, 5, 12, 0x4787c62a),
  (ff, 6, 17, 0xa8304613), (ff, 7, 22, 0xfd469501), (ff, 8, 7, 0x698098d8),
  (ff, 9, 12, 0x8b44f7af), (ff, 10, 17, 0xffff5bb1), (ff, 11, 22, 0x895cd7be),
  (ff, 12, 7, 0x6b901122), (ff, 13, 12, 0xfd987193), (ff, 14, 17, 0xa679438e),
  (ff, 15, 22, 0x49b40821), (gg, 1, 5, 0xf61e2562), (gg, 6, 9, 0xc040b340),
  (gg, 11, 14, 0x265e5a51), (gg, 0, 20, 0xe9b6c7aa), (gg, 5, 5, 0xd62f105d),
  (gg, 10, 9, 0x2441453), (gg, 15, 14, 0xd8a1e681), (gg, 4, 20, 0xe7d3fbc8),
  (gg, 9, 5, 0x21e1cde6), (gg, 14, 9, 0xc33707d6), (gg, 3, 14, 0xf4d50d87),
  (gg, 8, 20, 0x455a14ed), (gg, 13, 5, 0xa9e3e905), (gg, 2, 9, 0xfcefa3f8),
  (gg, 7, 14, 0x676f02d9), (gg, 12, 20, 0x8d2a4c8a), (hh, 5, 4, 0xfffa3942),
  (hh, 8, 11, 0x8771f681), (hh, 11, 16, 0x6d9d6122), (hh, 14, 23, 0xfde5380c),
  (hh, 1, 4, 0xa4beea44), (hh, 4, 11, 0x4bdecfa9), (hh, 7, 16, 0xf6bb4b60),
  (hh, 10, 23, 0xbebfbc70), (hh, 13, 4, 0x289b7ec6), (hh, 0, 11, 0xeaa127fa),
  (hh, 3, 16, 0xd4ef3085), (hh, 6, 23, 0x4881d05), (hh, 9, 4, 0xd9d4d039),
  (hh, 12, 11, 0xe6db99e5), (hh, 15, 16, 0x1fa27cf8), (hh, 2, 23, 0xc4ac5665),
  (ii, 0, 6, 0xf4292244), (ii, 7, 10, 0x432aff97), (ii, 14, 15, 0xab9423a7),
  (ii, 5, 21, 0xfc93a039), (ii, 12, 6, 0x655b59c3), (ii, 3, 10, 0x8f0ccc92),
  (ii, 10, 15, 0xffeff47d), (ii, 1, 21, 0x85845dd1), (ii, 8, 6, 0x6fa87e4f),
  (ii, 15, 10, 0xfe2ce6e0), (ii, 6, 15, 0xa3014314), (ii, 13, 21, 0x4e0811a1),
  (ii, 4, 6, 0xf7537e82), (ii, 11, 10, 0xbd3af235), (ii, 2, 15, 0x2ad7d2bb),
  (ii, 9, 21, 0xeb86d391)]

/-- `MD5Decode`. -/
def md5Decode : List UInt8 → List UInt32
  | b₀ :: b₁ :: b₂ :: b₃ :: rest =>
    (b₀.toUInt32 ||| (b₁.toUInt32 <<< 8) ||| (b₂.toUInt32 <<< 16) ||| (b₃.toUInt32 <<< 24)) ::
      md5Decode rest
  | _ => []

/-- `MD5Encode`. -/
def md5Encode : List UInt32 → List UInt8
  | [] => []
  | w :: ws =>
    (w &&& 0xFF).toUInt8 :: ((w >>> 8) &&& 0xFF).toUInt8 :: ((w >>> 16) &&& 0xFF).toUInt8 ::
      ((w >>> 24) &&& 0xFF).toUInt8 :: md5Encode ws

/-- `MD5Transform`. The variables change their places in turn. -/
def md5Transform (state : Words) (block : List UInt8) : Words :=
  let x := md5Decode block
  let t := operations.foldl
    (fun t (op, i, s, ac) => ⟨t.d, op t.a t.b t.c t.d (x.getD i 0) s ac, t.b, t.c⟩) state
  ⟨state.a + t.a, state.b + t.b, state.c + t.c, state.d + t.d⟩

/-! ## The stream -/

def initialState : Words := ⟨0x67452301, 0xEFCDAB89, 0x98BADCFE, 0x10325476⟩

/-- `MD5Init`. -/
def md5Init (buffer : List UInt8) : Ctx where
  count₀ := 0
  count₁ := 0
  state := initialState
  buffer := buffer

/-- `memcpy(&buffer[index], bytes, ..)`. -/
def store (buffer : List UInt8) (index : ℕ) (bytes : List UInt8) : List UInt8 :=
  buffer.take index ++ bytes ++ buffer.drop (index + bytes.length)

/-- The loop of `MD5Update` over the whole blocks of the input from `i` on, with a bound on its
turns: the state and `i`. -/
def transformLoop (input : List UInt8) : ℕ → ℕ → Words → Words × ℕ
  | 0, i, state => (state, i)
  | fuel + 1, i, state =>
    if i + 64 ≤ input.length then
      transformLoop input fuel (i + 64) (md5Transform state ((input.drop i).take 64))
    else (state, i)

/-- `MD5Update`. -/
def md5Update (ctx : Ctx) (input : List UInt8) : Ctx :=
  let inputlen := UInt32.ofNat input.length
  let index := ((ctx.count₀ >>> 3) &&& 0x3F).toNat
  let partlen := 64 - index
  let count₀ := ctx.count₀ + (inputlen <<< 3)
  let count₁ := if count₀ < inputlen <<< 3 then ctx.count₁ + 1 else ctx.count₁
  let count₁ := count₁ + (inputlen >>> 29)
  if partlen ≤ input.length then
    let buffer := store ctx.buffer index (input.take partlen)
    let (state, i) :=
      transformLoop input input.length partlen (md5Transform ctx.state buffer)
    { count₀, count₁, state, buffer := store buffer 0 (input.drop i) }
  else { count₀, count₁, state := ctx.state, buffer := store ctx.buffer index input }

/-- `PADDING`. -/
def padding : List UInt8 := 0x80 :: List.replicate 63 0

/-- `MD5Final`: the digest. -/
def md5Final (ctx : Ctx) : List UInt8 :=
  let index := ((ctx.count₀ >>> 3) &&& 0x3F).toNat
  let padlen := if index < 56 then 56 - index else 120 - index
  let bits := md5Encode [ctx.count₀, ctx.count₁]
  let ctx := md5Update ctx (padding.take padlen)
  let state := (md5Update ctx bits).state
  md5Encode [state.a, state.b, state.c, state.d]

/-! ## A file -/

/-- `file.get(data, READ_DATA_SIZE)`: the characters, which end before the end of the line, and what
is left of the file. -/
def get (file : List UInt8) : List UInt8 × List UInt8 :=
  let data := (file.takeWhile (· ≠ 10)).take 1023
  (data, file.drop data.length)

/-- The loop of `Compute_file_md5`, with a bound on its turns. It ends when no character is read. -/
def readLoop : ℕ → Ctx → List UInt8 → Ctx
  | 0, ctx, _ => ctx
  | fuel + 1, ctx, file =>
    let (data, file) := get file
    if data = [] then ctx else readLoop fuel (md5Update ctx data) file

/-- A digit of `%02x`. -/
def hexDigit (n : ℕ) : Char := if n < 10 then Char.ofNat (48 + n) else Char.ofNat (87 + n)

/-- The text of a digest. -/
def md5Str (digest : List UInt8) : List Char :=
  digest.flatMap fun b => [hexDigit (b.toNat / 16), hexDigit (b.toNat % 16)]

/-- `Compute_file_md5`: the text, if the file can be opened. -/
def computeFileMd5 (buffer : List UInt8) (file : Option (List UInt8)) : Option (List Char) :=
  file.map fun content =>
    md5Str (md5Final (readLoop (content.length + 1) (md5Init buffer) content))

end CodeTest.CppNet.Md5
