/-
PagePreview.Proofs.Text.Utf8 — the bytes of a text are read as the text.

A character has one to four bytes. The first of them says how many follow
and in which range the second lies; that range is where the character is
neither written too long nor a surrogate.

* `readUtf8From_utf8EncodeChar` — a character, with anything behind it.
* `readUtf8_utf8Bytes` — a whole text.
-/
import Mathlib
import PagePreview.Text.Utf8

namespace PagePreview

/-! ## One byte -/

section

variable {b : UInt8} {m bits low high : Nat} (rest : List UInt8)

/-- A byte in the range that is expected completes a character of which it
is the last. -/
theorem readUtf8From_last (hb : b.toNat = m) (hlow : low ≤ m) (hhigh : m ≤ high) :
    readUtf8From (some ⟨1, bits, low, high⟩) (b :: rest) =
      Char.ofNat (bits * 64 + (m - 0x80)) :: readUtf8From none rest := by
  subst hb
  rw [readUtf8From, if_pos ⟨hlow, hhigh⟩]
  rfl

/-- A byte in the range that is expected goes on with a character of which
it is not the last. -/
theorem readUtf8From_next (following : Nat) (hb : b.toNat = m) (hlow : low ≤ m)
    (hhigh : m ≤ high) :
    readUtf8From (some ⟨following + 2, bits, low, high⟩) (b :: rest) =
      readUtf8From (some ⟨following + 1, bits * 64 + (m - 0x80), 0x80, 0xBF⟩) rest := by
  subst hb
  have hmore : ¬following + 2 ≤ 1 := by omega
  rw [readUtf8From, if_pos ⟨hlow, hhigh⟩]
  exact if_neg hmore

theorem readUtf8From_lead {following : Nat} (hb : b.toNat = m) (hm : 0x80 ≤ m)
    (hlead : leadOf? m = some ⟨following, bits, low, high⟩) :
    readUtf8From none (b :: rest) = readUtf8From (some ⟨following, bits, low, high⟩) rest := by
  subst hb
  rw [readUtf8From, if_neg (by omega), hlead]

end

/-! ## The first byte -/

variable {n : Nat}

theorem leadOf?_two (hlow : 0x80 ≤ n) (hhigh : n ≤ 0x7FF) :
    leadOf? (n / 64 % 32 + 192) = some ⟨1, n / 64, 0x80, 0xBF⟩ := by
  have hbits : n / 64 % 32 + 192 - 0xC0 = n / 64 := by omega
  rw [leadOf?, if_pos (by omega), hbits]

/-- The second byte of a character of three bytes that is no surrogate lies
in the range that the first one announces. -/
theorem leadOf?_three (hlow : 0x800 ≤ n) (hhigh : n ≤ 0xFFFF)
    (hscalar : n < 0xD800 ∨ 0xDFFF < n) :
    ∃ low high, leadOf? (n / 4096 % 16 + 224) = some ⟨2, n / 4096, low, high⟩ ∧
      low ≤ n / 64 % 64 + 128 ∧ n / 64 % 64 + 128 ≤ high := by
  rcases Nat.lt_or_ge n 0x1000 with hfirst | hfirst
  · have hlead : n / 4096 = 0 := by omega
    exact ⟨0xA0, 0xBF, by rw [hlead]; decide, by omega, by omega⟩
  · by_cases hlead : n / 4096 = 0xD
    · exact ⟨0x80, 0x9F, by rw [hlead]; decide, by omega, by omega⟩
    · have hbits : n / 4096 % 16 + 224 - 0xE0 = n / 4096 := by omega
      refine ⟨0x80, 0xBF, ?_, by omega, by omega⟩
      rw [leadOf?, if_neg (by omega), if_neg (by omega), if_neg (by omega), if_pos (by omega),
        hbits]

theorem leadOf?_four (hlow : 0x10000 ≤ n) (hhigh : n ≤ 0x10FFFF) :
    ∃ low high, leadOf? (n / 262144 % 8 + 240) = some ⟨3, n / 262144, low, high⟩ ∧
      low ≤ n / 4096 % 64 + 128 ∧ n / 4096 % 64 + 128 ≤ high := by
  have hlead : n / 262144 = 0 ∨ n / 262144 = 1 ∨ n / 262144 = 2 ∨ n / 262144 = 3 ∨
      n / 262144 = 4 := by
    omega
  rcases hlead with hlead | hlead | hlead | hlead | hlead
  · exact ⟨0x90, 0xBF, by rw [hlead]; decide, by omega, by omega⟩
  · exact ⟨0x80, 0xBF, by rw [hlead]; decide, by omega, by omega⟩
  · exact ⟨0x80, 0xBF, by rw [hlead]; decide, by omega, by omega⟩
  · exact ⟨0x80, 0xBF, by rw [hlead]; decide, by omega, by omega⟩
  · exact ⟨0x80, 0x8F, by rw [hlead]; decide, by omega, by omega⟩

/-! ## Characters and texts -/

theorem scalar_of_char (c : Char) :
    c.val.toNat < 0xD800 ∨ 0xDFFF < c.val.toNat ∧ c.val.toNat ≤ 0x10FFFF := by
  have hvalid : c.val.toNat < 0xD800 ∨ 0xDFFF < c.val.toNat ∧ c.val.toNat < 0x110000 := c.valid
  omega

theorem toNat_byte {m : Nat} (h : m < 256) : (UInt8.ofNat m).toNat = m :=
  UInt8.toNat_ofNat_of_lt' h

/-- The bytes of a character are read as the character, with anything behind
them. -/
theorem readUtf8From_utf8EncodeChar (c : Char) (rest : List UInt8) :
    readUtf8From none (String.utf8EncodeChar c ++ rest) = c :: readUtf8From none rest := by
  have hscalar := scalar_of_char c
  have hchar : Char.ofNat c.val.toNat = c := Char.ofNat_toNat c
  generalize hn : c.val.toNat = n at hscalar hchar
  rw [String.utf8EncodeChar, hn]
  have htail := toNat_byte (m := n % 64 + 128) (by omega)
  split_ifs with h1 h2 h3
  · rw [List.singleton_append, readUtf8From, toNat_byte (by omega), if_pos (by omega), hchar]
  · have hbits : n / 64 * 64 + (n % 64 + 128 - 0x80) = n := by omega
    rw [List.cons_append, List.singleton_append,
      readUtf8From_lead _ (toNat_byte (by omega)) (by omega) (leadOf?_two (by omega) h2),
      readUtf8From_last _ htail (by omega) (by omega), hbits, hchar]
  · obtain ⟨low, high, hlead, hlow, hhigh⟩ := leadOf?_three (n := n) (by omega) h3 (by omega)
    have hbits :
        (n / 4096 * 64 + (n / 64 % 64 + 128 - 0x80)) * 64 + (n % 64 + 128 - 0x80) = n := by
      omega
    rw [List.cons_append, List.cons_append, List.singleton_append,
      readUtf8From_lead _ (toNat_byte (by omega)) (by omega) hlead,
      readUtf8From_next _ 0 (toNat_byte (by omega)) hlow hhigh,
      readUtf8From_last _ htail (by omega) (by omega), hbits, hchar]
  · obtain ⟨low, high, hlead, hlow, hhigh⟩ := leadOf?_four (n := n) (by omega) (by omega)
    have hbits : ((n / 262144 * 64 + (n / 4096 % 64 + 128 - 0x80)) * 64 +
        (n / 64 % 64 + 128 - 0x80)) * 64 + (n % 64 + 128 - 0x80) = n := by
      omega
    rw [List.cons_append, List.cons_append, List.cons_append, List.singleton_append,
      readUtf8From_lead _ (toNat_byte (by omega)) (by omega) hlead,
      readUtf8From_next _ 1 (toNat_byte (by omega)) hlow hhigh,
      readUtf8From_next _ 0 (toNat_byte (by omega)) (by omega) (by omega),
      readUtf8From_last _ htail (by omega) (by omega), hbits, hchar]

/-- The bytes of a text are read as the text. -/
theorem readUtf8_utf8Bytes (cs : List Char) : readUtf8 (utf8Bytes cs) = cs := by
  rw [readUtf8, utf8Bytes]
  induction cs with
  | nil => rfl
  | cons c rest ih => rw [List.flatMap_cons, readUtf8From_utf8EncodeChar, ih]

end PagePreview
