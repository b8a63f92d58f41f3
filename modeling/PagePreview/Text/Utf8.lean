/-
PagePreview.Text.Utf8 — texts as bytes, and bytes as texts.

Every text has bytes, but not every sequence of bytes is a text. Reading
is lenient: where the bytes cannot go on to be a character, those that
could have begun one are replaced by a single replacement character.

* `utf8Bytes` — the bytes of a text.
* `leadOf?` — how a character that starts with a byte goes on.
* `readUtf8` — the text that bytes stand for.
-/

namespace PagePreview

def utf8Bytes (cs : List Char) : List UInt8 :=
  cs.flatMap String.utf8EncodeChar

/-- The character in the place of bytes that are no character. -/
def replacementChar : Char := '\ufffd'

/-- What the first byte of a longer character says: how many bytes follow,
the bits it contributes, and the range of the second byte. -/
structure Utf8Lead where
  following : Nat
  bits : Nat
  secondLow : Nat
  secondHigh : Nat
  deriving Repr, DecidableEq

/-- The first byte of a character of two to four bytes. -/
def leadOf? (b : Nat) : Option Utf8Lead :=
  if 0xC2 ≤ b ∧ b ≤ 0xDF then some ⟨1, b - 0xC0, 0x80, 0xBF⟩
  else if b = 0xE0 then some ⟨2, 0, 0xA0, 0xBF⟩
  else if b = 0xED then some ⟨2, 0xD, 0x80, 0x9F⟩
  else if 0xE1 ≤ b ∧ b ≤ 0xEF then some ⟨2, b - 0xE0, 0x80, 0xBF⟩
  else if b = 0xF0 then some ⟨3, 0, 0x90, 0xBF⟩
  else if 0xF1 ≤ b ∧ b ≤ 0xF3 then some ⟨3, b - 0xF0, 0x80, 0xBF⟩
  else if b = 0xF4 then some ⟨3, 4, 0x80, 0x8F⟩
  else none

/-- The bytes of the character that has been begun: `following` of them are
missing, the next one lies in a range, and `bits` is what the others
contribute. A byte that does not fit ends the character too early. -/
structure Utf8Partial where
  following : Nat
  bits : Nat
  low : Nat
  high : Nat

/-- Reads bytes after those of a character that may have been begun. -/
def readUtf8From : Option Utf8Partial → List UInt8 → List Char
  | none, [] => []
  | some _, [] => [replacementChar]
  | none, b :: rest =>
    if b.toNat < 0x80 then Char.ofNat b.toNat :: readUtf8From none rest
    else match leadOf? b.toNat with
      | some l =>
        readUtf8From (some ⟨l.following, l.bits, l.secondLow, l.secondHigh⟩) rest
      | none => replacementChar :: readUtf8From none rest
  | some p, b :: rest =>
    if p.low ≤ b.toNat ∧ b.toNat ≤ p.high then
      let bits := p.bits * 64 + (b.toNat - 0x80)
      if p.following ≤ 1 then Char.ofNat bits :: readUtf8From none rest
      else readUtf8From (some ⟨p.following - 1, bits, 0x80, 0xBF⟩) rest
    else if b.toNat < 0x80 then
      replacementChar :: Char.ofNat b.toNat :: readUtf8From none rest
    else match leadOf? b.toNat with
      | some l =>
        replacementChar ::
          readUtf8From (some ⟨l.following, l.bits, l.secondLow, l.secondHigh⟩) rest
      | none => replacementChar :: replacementChar :: readUtf8From none rest

def readUtf8 (bytes : List UInt8) : List Char :=
  readUtf8From none bytes

end PagePreview
