import Viy.Facts.Types

/-!
# Text encodings of string candidates

The byte-level checks `valid_utf8`, `valid_utf16` and `valid_utf32`: each walks the bytes once and
rejects truncated, overlong, surrogate and out-of-range code points.
-/

namespace Viy.Analysis

open Wire

/-- The number of bytes of one code unit. -/
def stringCodeUnitSize : StringEncoding → ℕ
  | .utf16LE | .utf16BE => 2
  | .utf32LE | .utf32BE => 4
  | _ => 1

/-- The continuation bytes of one sequence, then the range check of its code point. -/
def utf8Continue (minimum : UInt32) : UInt32 → Bytes → Bool
  | codepoint, [] =>
    !(codepoint < minimum || codepoint > 0x10ffff || (codepoint ≥ 0xd800 && codepoint ≤ 0xdfff))
  | codepoint, continuation :: rest =>
    if continuation &&& 0xc0 != 0x80 then false
    else utf8Continue minimum ((codepoint <<< 6) ||| (continuation &&& 0x3f).toUInt32) rest

def validUtf8 : Bytes → Bool
  | [] => true
  | first :: rest =>
    if first ≤ 0x7f then validUtf8 rest
    else if first ≥ 0xc2 && first ≤ 0xdf then
      match rest with
      | a :: rest => utf8Continue 0x80 (first &&& 0x1f).toUInt32 [a] && validUtf8 rest
      | _ => false
    else if first ≥ 0xe0 && first ≤ 0xef then
      match rest with
      | a :: b :: rest =>
        utf8Continue 0x800 (first &&& 0x0f).toUInt32 [a, b] && validUtf8 rest
      | _ => false
    else if first ≥ 0xf0 && first ≤ 0xf4 then
      match rest with
      | a :: b :: c :: rest =>
        utf8Continue 0x10000 (first &&& 0x07).toUInt32 [a, b, c] && validUtf8 rest
      | _ => false
    else false

def readU16CodeUnit (a b : UInt8) (littleEndian : Bool) : UInt16 :=
  if littleEndian then a.toUInt16 ||| (b.toUInt16 <<< 8) else (a.toUInt16 <<< 8) ||| b.toUInt16

/-- The loop of `valid_utf16`, two bytes at a time; a surrogate pair takes two units. -/
def utf16Units (littleEndian : Bool) : Bytes → Bool
  | a :: b :: rest =>
    let unit := readU16CodeUnit a b littleEndian
    if unit ≥ 0xd800 && unit ≤ 0xdbff then
      match rest with
      | c :: d :: rest =>
        let low := readU16CodeUnit c d littleEndian
        if low < 0xdc00 || low > 0xdfff then false else utf16Units littleEndian rest
      | _ => false
    else if unit ≥ 0xdc00 && unit ≤ 0xdfff then false
    else utf16Units littleEndian rest
  | _ => true

def validUtf16 (bytes : Bytes) (littleEndian : Bool) : Bool :=
  if bytes.length % 2 != 0 then false else utf16Units littleEndian bytes

def readU32CodeUnit (a b c d : UInt8) (littleEndian : Bool) : UInt32 :=
  if littleEndian then
    a.toUInt32 ||| (b.toUInt32 <<< 8) ||| (c.toUInt32 <<< 16) ||| (d.toUInt32 <<< 24)
  else (a.toUInt32 <<< 24) ||| (b.toUInt32 <<< 16) ||| (c.toUInt32 <<< 8) ||| d.toUInt32

/-- The loop of `valid_utf32`, four bytes at a time. -/
def utf32Units (littleEndian : Bool) : Bytes → Bool
  | a :: b :: c :: d :: rest =>
    let codepoint := readU32CodeUnit a b c d littleEndian
    if codepoint > 0x10ffff || (codepoint ≥ 0xd800 && codepoint ≤ 0xdfff) then false
    else utf32Units littleEndian rest
  | _ => true

def validUtf32 (bytes : Bytes) (littleEndian : Bool) : Bool :=
  if bytes.length % 4 != 0 then false else utf32Units littleEndian bytes

def stringBytesMatchEncoding (fact : StringCandidateFact) : Bool :=
  match fact.encoding with
  | .bytes => true
  | .ascii => fact.bytes.all fun byte => byte ≤ 0x7f
  | .utf8 => validUtf8 fact.bytes
  | .utf16LE => validUtf16 fact.bytes true
  | .utf16BE => validUtf16 fact.bytes false
  | .utf32LE => validUtf32 fact.bytes true
  | .utf32BE => validUtf32 fact.bytes false

end Viy.Analysis
