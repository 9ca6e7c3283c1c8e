import BtServer.Lib.Buffer

/-! The UTF-8 conversions of `tools.c`. Characters are decoded through signed `char` variables, whose
arithmetic is that of `int`, into the single bytes of an `unsigned long`. -/

namespace BtServer
open Lib

def encGetUtf8Size (c : UInt8) : Int :=
  if c < 0x80 then 0
  else if c < 0xC0 then -1
  else if c < 0xE0 then 2
  else if c < 0xF0 then 3
  else if c < 0xF8 then 4
  else if c < 0xFC then 5
  else 6

/-- A byte in a `char`, as an operand of `int` arithmetic. -/
def toChar (byte : UInt8) : Int32 := byte.toInt8.toInt32

/-- An `int` stored in a byte. -/
def storeByte (value : Int32) : UInt8 := value.toInt8.toUInt8

/-- A following byte is refused unless it is of the form 10xxxxxx. -/
def notFollowing (b : Int32) : Bool := b &&& 0xC0 != 0x80

/-- `enc_utf8_to_unicode_one`: the returned number of bytes and the bytes stored in `Unic`, from the
lowest; the others are zero. -/
def encUtf8ToUnicodeOne (pInput : Bytes) : Nat × Bytes :=
  let b1 := toChar (pInput.getD 0 0)
  let b2 := toChar (pInput.getD 1 0)
  let b3 := toChar (pInput.getD 2 0)
  let b4 := toChar (pInput.getD 3 0)
  let b5 := toChar (pInput.getD 4 0)
  let b6 := toChar (pInput.getD 5 0)
  let utfbytes := encGetUtf8Size (pInput.getD 0 0)
  if utfbytes = 0 then (1, [pInput.getD 0 0])
  else if utfbytes = 2 then
    -- The mask of this class has a bit more than that of the others.
    if (b2 &&& (0xE0 : Int32)) != 0x80 then (0, [])
    else (2, [storeByte ((b1 <<< 6) + (b2 &&& 0x3F)), storeByte ((b1 >>> 2) &&& 0x07)])
  else if utfbytes = 3 then
    if notFollowing b2 || notFollowing b3 then (0, [])
    else (3, [storeByte ((b2 <<< 6) + (b3 &&& 0x3F)), storeByte ((b1 <<< 4) + ((b2 >>> 2) &&& 0x0F))])
  else if utfbytes = 4 then
    if notFollowing b2 || notFollowing b3 || notFollowing b4 then (0, [])
    else (4, [storeByte ((b3 <<< 6) + (b4 &&& 0x3F)), storeByte ((b2 <<< 4) + ((b3 >>> 2) &&& 0x0F)),
      storeByte (((b1 <<< 2) &&& (0x1C : Int32)) + ((b2 >>> 4) &&& 0x03))])
  else if utfbytes = 5 then
    if notFollowing b2 || notFollowing b3 || notFollowing b4 || notFollowing b5 then (0, [])
    else (5, [storeByte ((b4 <<< 6) + (b5 &&& 0x3F)), storeByte ((b3 <<< 4) + ((b4 >>> 2) &&& 0x0F)),
      storeByte ((b2 <<< 2) + ((b3 >>> 4) &&& 0x03)), storeByte (b1 <<< 6)])
  else if utfbytes = 6 then
    if notFollowing b2 || notFollowing b3 || notFollowing b4 || notFollowing b5 || notFollowing b6 then (0, [])
    else (6, [storeByte ((b5 <<< 6) + (b6 &&& 0x3F)), storeByte ((b5 <<< 4) + ((b6 >>> 2) &&& 0x0F)),
      storeByte ((b3 <<< 2) + ((b4 >>> 4) &&& 0x03)), storeByte (((b1 <<< 6) &&& (0x40 : Int32)) + (b2 &&& 0x3F))])
  else (0, [])

/-- `enc_unicode_to_utf8_one`: the bytes it writes; their number is what it returns. -/
def encUnicodeToUtf8One (unic : Nat) : Bytes :=
  if unic ≤ 0x7F then [(unic &&& 0x7F).toUInt8]
  else if unic ≤ 0x7FF then [((unic >>> 6) &&& 0x1F ||| 0xC0).toUInt8, (unic &&& 0x3F ||| 0x80).toUInt8]
  else if unic ≤ 0xFFFF then
    [((unic >>> 12) &&& 0x0F ||| 0xE0).toUInt8, ((unic >>> 6) &&& 0x3F ||| 0x80).toUInt8, (unic &&& 0x3F ||| 0x80).toUInt8]
  else if unic ≤ 0x1FFFFF then
    [((unic >>> 18) &&& 0x07 ||| 0xF0).toUInt8, ((unic >>> 12) &&& 0x3F ||| 0x80).toUInt8,
      ((unic >>> 6) &&& 0x3F ||| 0x80).toUInt8, (unic &&& 0x3F ||| 0x80).toUInt8]
  else if unic ≤ 0x3FFFFFF then
    [((unic >>> 24) &&& 0x03 ||| 0xF8).toUInt8, ((unic >>> 18) &&& 0x3F ||| 0x80).toUInt8,
      ((unic >>> 12) &&& 0x3F ||| 0x80).toUInt8, ((unic >>> 6) &&& 0x3F ||| 0x80).toUInt8, (unic &&& 0x3F ||| 0x80).toUInt8]
  else if unic ≤ 0x7FFFFFFF then
    [((unic >>> 30) &&& 0x01 ||| 0xFC).toUInt8, ((unic >>> 24) &&& 0x3F ||| 0x80).toUInt8,
      ((unic >>> 18) &&& 0x3F ||| 0x80).toUInt8, ((unic >>> 12) &&& 0x3F ||| 0x80).toUInt8,
      ((unic >>> 6) &&& 0x3F ||| 0x80).toUInt8, (unic &&& 0x3F ||| 0x80).toUInt8]
  else []

/-- The loop of `unicode_to_utf8`, with `pOutput` the bytes written so far. Without a zero among the code
points it runs out of the array. -/
def unicodeToUtf8 : (unic : List Nat) → (pOutput : Bytes) → Option Bytes
  | [], _ => none
  | 0 :: _, pOutput => some (pOutput ++ [0])
  | code :: unic, pOutput =>
    if code ≤ 0x7F then unicodeToUtf8 unic (pOutput ++ [(code &&& 0x7F).toUInt8])
    else if 0x80 ≤ code ∧ code ≤ 0x7FF then
      unicodeToUtf8 unic (pOutput ++ [((code >>> 6) &&& 0x1F ||| 0xC0).toUInt8] ++ [(code &&& 0x3F ||| 0x80).toUInt8])
    else if 0x800 ≤ code ∧ code ≤ 0xFFFF then
      unicodeToUtf8 unic (pOutput ++ [((code >>> 12) &&& 0x0F ||| 0xE0).toUInt8] ++
        [((code >>> 6) &&& 0x3F ||| 0x80).toUInt8] ++ [(code &&& 0x3F ||| 0x80).toUInt8])
    else if 0x10000 ≤ code ∧ code ≤ 0x1FFFFF then
      unicodeToUtf8 unic (pOutput ++ [((code >>> 18) &&& 0x07 ||| 0xF0).toUInt8] ++
        [((code >>> 12) &&& 0x3F ||| 0x80).toUInt8] ++ [((code >>> 6) &&& 0x3F ||| 0x80).toUInt8] ++
        [(code &&& 0x3F ||| 0x80).toUInt8])
    else if 0x200000 ≤ code ∧ code ≤ 0x3FFFFFF then
      unicodeToUtf8 unic (pOutput ++ [((code >>> 24) &&& 0x03 ||| 0xF8).toUInt8] ++
        [((code >>> 18) &&& 0x3F ||| 0x80).toUInt8] ++ [((code >>> 12) &&& 0x3F ||| 0x80).toUInt8] ++
        [((code >>> 6) &&& 0x3F ||| 0x80).toUInt8] ++ [(code &&& 0x3F ||| 0x80).toUInt8])
    else if 0x4000000 ≤ code ∧ code ≤ 0x7FFFFFFF then
      unicodeToUtf8 unic (pOutput ++ [((code >>> 30) &&& 0x01 ||| 0xFC).toUInt8] ++
        [((code >>> 24) &&& 0x3F ||| 0x80).toUInt8] ++ [((code >>> 18) &&& 0x3F ||| 0x80).toUInt8] ++
        [((code >>> 12) &&& 0x3F ||| 0x80).toUInt8] ++ [((code >>> 6) &&& 0x3F ||| 0x80).toUInt8] ++
        [(code &&& 0x3F ||| 0x80).toUInt8])
    else unicodeToUtf8 unic pOutput

end BtServer
