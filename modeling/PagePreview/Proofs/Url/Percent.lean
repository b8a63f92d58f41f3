/-
PagePreview.Proofs.Url.Percent — a text that is encoded is decoded to itself.

What is written for a byte is read as the byte again, whatever stands
behind it, and it never holds a character that separates the parts of a
URL.

* `decodeBytes_encodeByte` — one byte, with anything behind it.
* `decode_encode` — a whole text.
* `notMem_encode` — separators are not among what is written.
-/
import PagePreview.Proofs.Text.Utf8
import PagePreview.Url.Percent

namespace PagePreview

namespace Percent

/-! ## What is written -/

theorem isPlain_hexDigit : ∀ n < 16, isPlain (hexDigit n) := by
  decide

/-- All that is written is a plain character or the start of an escape. -/
theorem isPlain_of_mem_encodeByte {b : UInt8} {c : Char} (h : c ∈ encodeByte b) :
    isPlain c ∨ c = '%' := by
  have hb : b.toNat < 256 := b.toNat_lt
  simp only [encodeByte] at h
  split at h
  next hplain =>
    obtain rfl := List.mem_singleton.mp h
    exact .inl hplain.2
  next =>
    simp only [List.mem_cons, List.not_mem_nil, or_false] at h
    rcases h with rfl | rfl | rfl
    · exact .inr rfl
    · exact .inl (isPlain_hexDigit _ (by omega))
    · exact .inl (isPlain_hexDigit _ (by omega))

theorem isPlain_of_mem_encode {s : String} {c : Char} (h : c ∈ (encode s).toList) :
    isPlain c ∨ c = '%' := by
  rw [encode, String.toList_ofList] at h
  obtain ⟨b, -, hc⟩ := List.mem_flatMap.mp h
  exact isPlain_of_mem_encodeByte hc

theorem notMem_encode {c : Char} (hplain : ¬isPlain c) (hescape : c ≠ '%') (s : String) :
    c ∉ (encode s).toList := fun h =>
  (isPlain_of_mem_encode h).elim hplain hescape

/-! ## What is read -/

theorem utf8EncodeChar_ofNat {n : Nat} (h : n < 0x80) :
    String.utf8EncodeChar (Char.ofNat n) = [UInt8.ofNat n] := by
  have hval : (Char.ofNat n).val.toNat = n :=
    (Char.toNat_ofNat n).trans (if_pos (.inl (by omega)))
  rw [String.utf8EncodeChar, hval, if_pos (by omega)]

theorem hexValue?_hexDigit : ∀ n < 16, ∃ b : UInt8,
    String.utf8EncodeChar (hexDigit n) = [b] ∧ hexValue? b = some n := by
  decide

/-- Bytes that neither begin an escape nor stand for a space are read as they
are. -/
theorem decodeBytes_cons {b : UInt8} (hescape : b ≠ 0x25) (hspace : b ≠ 0x2B)
    (rest : List UInt8) : decodeBytes (b :: rest) = b :: decodeBytes rest := by
  have hplain : plainByte b = b := if_neg hspace
  match rest with
  | [] => rw [decodeBytes, hplain]; simp
  | [_] => rw [decodeBytes, hplain]; simp
  | _ :: _ :: _ => rw [decodeBytes, if_neg hescape]; simp only [hplain]

theorem decodeBytes_escape {high low b : UInt8} (h : hexPair? high low = some b)
    (rest : List UInt8) : decodeBytes (0x25 :: high :: low :: rest) = b :: decodeBytes rest := by
  rw [decodeBytes, if_pos rfl, h]

/-- What is written for a byte is read as the byte. -/
theorem decodeBytes_encodeByte (b : UInt8) (rest : List UInt8) :
    decodeBytes (utf8Bytes (encodeByte b) ++ rest) = b :: decodeBytes rest := by
  have hb : b.toNat < 256 := b.toNat_lt
  simp only [encodeByte]
  split
  next hplain =>
    have hbyte : utf8Bytes [Char.ofNat b.toNat] = [b] := by
      simp [utf8Bytes, utf8EncodeChar_ofNat hplain.1]
    rw [hbyte, List.singleton_append]
    refine decodeBytes_cons ?_ ?_ rest
    · rintro rfl
      exact absurd hplain.2 (by decide)
    · rintro rfl
      exact absurd hplain.2 (by decide)
  next =>
    obtain ⟨high, hhigh, hvalue⟩ := hexValue?_hexDigit (b.toNat / 16) (by omega)
    obtain ⟨low, hlow, hvalue'⟩ := hexValue?_hexDigit (b.toNat % 16) (by omega)
    have hbytes : utf8Bytes ['%', hexDigit (b.toNat / 16), hexDigit (b.toNat % 16)] =
        [0x25, high, low] := by
      simp only [utf8Bytes, List.flatMap_cons, List.flatMap_nil, hhigh, hlow]
      rfl
    have hpair : hexPair? high low = some b := by
      have hsum : 16 * (b.toNat / 16) + b.toNat % 16 = b.toNat := by omega
      rw [hexPair?, hvalue, hvalue']
      simp only [hsum, UInt8.ofNat_toNat]
    rw [hbytes]
    exact decodeBytes_escape hpair rest

theorem decodeBytes_flatMap_encodeByte : ∀ bytes : List UInt8,
    decodeBytes (utf8Bytes (bytes.flatMap encodeByte)) = bytes
  | [] => rfl
  | b :: bytes => by
      have hsplit : utf8Bytes ((b :: bytes).flatMap encodeByte) =
          utf8Bytes (encodeByte b) ++ utf8Bytes (bytes.flatMap encodeByte) := by
        simp [utf8Bytes]
      rw [hsplit, decodeBytes_encodeByte, decodeBytes_flatMap_encodeByte bytes]

/-- A text that is encoded is decoded to itself. -/
theorem decode_encode (s : String) : decode (encode s).toList = s := by
  rw [decode, encode, String.toList_ofList, decodeBytes_flatMap_encodeByte, readUtf8_utf8Bytes,
    String.ofList_toList]

end Percent

end PagePreview
