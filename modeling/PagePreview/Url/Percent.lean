/-
PagePreview.Url.Percent — texts as parts of a URL.

Both directions work on bytes. A byte that is written is a character of
its own if it is a letter, a digit or one of nine marks, and an escape of
two hexadecimal digits otherwise. Reading undoes escapes, takes a plus for
a space, and leaves alone what only looks like an escape.

* `Percent.encode`, `Percent.decode` — the two directions on texts.
-/
import PagePreview.Number.Numeral
import PagePreview.Text.Utf8

namespace PagePreview

namespace Percent

/-- The characters that are written as they are. -/
def isPlain (c : Char) : Bool :=
  c.isAlphanum || "-_.!~*'()".toList.contains c

def hexDigit (n : Nat) : Char :=
  if n < 10 then Char.ofNat (48 + n) else Char.ofNat (55 + n)

def encodeByte (b : UInt8) : List Char :=
  let c := Char.ofNat b.toNat
  if b.toNat < 0x80 ∧ isPlain c then [c]
  else ['%', hexDigit (b.toNat / 16), hexDigit (b.toNat % 16)]

/-- The value of a byte that is a hexadecimal digit. -/
def hexValue? (b : UInt8) : Option Nat :=
  if b.toNat < 0x80 then digitInBase? 16 (Char.ofNat b.toNat) else none

/-- The byte that two hexadecimal digits stand for. -/
def hexPair? (high low : UInt8) : Option UInt8 :=
  match hexValue? high, hexValue? low with
  | some h, some l => some (UInt8.ofNat (16 * h + l))
  | _, _ => none

/-- A byte that is not part of an escape. -/
def plainByte (b : UInt8) : UInt8 :=
  if b = 0x2B then 0x20 else b

def decodeBytes : List UInt8 → List UInt8
  | b :: high :: low :: rest =>
    match if b = 0x25 then hexPair? high low else none with
    | some decoded => decoded :: decodeBytes rest
    | none => plainByte b :: decodeBytes (high :: low :: rest)
  | b :: rest => plainByte b :: decodeBytes rest
  | [] => []

def encode (s : String) : String :=
  String.ofList ((utf8Bytes s.toList).flatMap encodeByte)

def decode (cs : List Char) : String :=
  String.ofList (readUtf8 (decodeBytes (utf8Bytes cs)))

end Percent

end PagePreview
