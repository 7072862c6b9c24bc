import TickHost.Proofs.Utf8
import TickHost.Url.Percent

/-!
Percent encoding, there and back. What an encoding writes is kept by every part of a URL that keeps
as much, so encoding a second time changes nothing; and decoding gives the bytes back, provided
that the encoding does not keep the sign of an escape.
-/

namespace TickHost.Url

open Utf8

variable {kept narrow : Char → Bool} {c : Char} {text rest : List Char} {bytes : Bytes}

/-! ### Digits -/

theorem hexDigit?_upperDigit {n : Nat} (hn : n < 16) :
    hexDigit? (UInt8.ofNat (upperDigit n).toNat) = some n := by
  have hall : ∀ n < 16, hexDigit? (UInt8.ofNat (upperDigit n).toNat) = some n := by decide
  exact hall n hn

/-! ### What is kept -/

/-- The characters that escapes are written with. -/
def isEscape (c : Char) : Bool :=
  "%0123456789ABCDEF".toList.contains c

/-- A part of a URL: it holds printing characters only, and escapes. -/
structure Admits (kept : Char → Bool) : Prop where
  plain : ∀ c, kept c = true → isPlain c = true
  escape : ∀ c, isEscape c = true → kept c = true

theorem isEscape_upperDigit {n : Nat} (hn : n < 16) : isEscape (upperDigit n) = true := by
  have hall : ∀ n < 16, isEscape (upperDigit n) = true := by decide
  exact hall n hn

theorem ascii_of_plain (h : isPlain c = true) : c.toNat < 0x80 := by
  simp only [isPlain, Bool.and_eq_true, decide_eq_true_eq] at h
  omega

theorem admits_of_all (hplain : ∀ c, kept c = true → isPlain c = true)
    (hescape : "%0123456789ABCDEF".toList.all kept = true) : Admits kept where
  plain := hplain
  escape c hc := List.all_eq_true.mp hescape c (List.contains_iff_mem.mp hc)

theorem admits_plain : Admits isPlain :=
  admits_of_all (fun _ => id) (by decide)

theorem admits_fragment : Admits keptInFragment :=
  admits_of_all (fun c hc => by simp [keptInFragment] at hc; exact hc.1) (by decide)

theorem admits_query (special : Bool) : Admits (keptInQuery special) :=
  admits_of_all (fun c hc => by simp [keptInQuery] at hc; exact hc.1.1)
    (by cases special <;> decide)

theorem admits_path : Admits keptInPath :=
  admits_of_all (fun c hc => by
    simp only [keptInPath, Bool.and_eq_true] at hc
    exact admits_fragment.plain c hc.1) (by decide)

theorem admits_userInfo : Admits keptInUserInfo :=
  admits_of_all (fun c hc => by
    simp only [keptInUserInfo, Bool.and_eq_true] at hc
    exact admits_path.plain c hc.1) (by decide)

theorem keptInPath_of_fileName (hc : keptInFileName c = true) : keptInPath c = true := by
  simp only [keptInFileName, Bool.and_eq_true] at hc
  exact hc.1

/-! ### Encoding -/

theorem encodeByte_cases (kept : Char → Bool) (b : UInt8) :
    (b.toNat < 0x80 ∧ kept (Char.ofNat b.toNat) = true ∧
      encodeByte kept b = [Char.ofNat b.toNat]) ∨
    (¬(b.toNat < 0x80 ∧ kept (Char.ofNat b.toNat) = true) ∧
      encodeByte kept b = ['%', upperDigit (b.toNat / 16), upperDigit (b.toNat % 16)]) := by
  by_cases h : b.toNat < 0x80 ∧ kept (Char.ofNat b.toNat) = true
  · exact .inl ⟨h.1, h.2, by simp [encodeByte, h]⟩
  · refine .inr ⟨h, ?_⟩
    rw [encodeByte, if_neg (by simpa using h)]

/-- Whatever is written, a part that keeps as much keeps it. -/
theorem kept_of_mem (hkept : Admits kept) (hnarrow : ∀ c, narrow c = true → kept c = true)
    (hc : c ∈ percentEncodeBytes narrow bytes) : kept c = true := by
  obtain ⟨b, -, hb⟩ := List.mem_flatMap.mp hc
  have hsmall : b.toNat < 256 := UInt8.toNat_lt_size b
  rcases encodeByte_cases narrow b with ⟨-, hplain, hwritten⟩ | ⟨-, hwritten⟩ <;>
    rw [hwritten] at hb
  · obtain rfl := List.mem_singleton.mp hb
    exact hnarrow _ hplain
  · simp only [List.mem_cons, List.not_mem_nil, or_false] at hb
    rcases hb with rfl | rfl | rfl
    · exact hkept.escape _ (by decide)
    · exact hkept.escape _ (isEscape_upperDigit (by omega))
    · exact hkept.escape _ (isEscape_upperDigit (by omega))

theorem kept_of_mem_percentEncode (hkept : Admits kept) (hc : c ∈ percentEncode kept text) :
    kept c = true :=
  kept_of_mem hkept (fun _ => id) hc

/-- An encoding holds characters of the text that are kept, and escapes. -/
theorem mem_percentEncode (hc : c ∈ percentEncode kept text) :
    c ∈ text ∧ kept c = true ∨ isEscape c = true := by
  obtain ⟨b, hmem, hb⟩ := List.mem_flatMap.mp hc
  have hsmall : b.toNat < 256 := UInt8.toNat_lt_size b
  rcases encodeByte_cases kept b with ⟨hascii, hplain, hwritten⟩ | ⟨-, hwritten⟩ <;>
    rw [hwritten] at hb
  · obtain rfl := List.mem_singleton.mp hb
    obtain ⟨c, hc, hvalue⟩ := mem_of_mem_encode hmem hascii
    rw [← hvalue, Char.ofNat_toNat] at hplain ⊢
    exact .inl ⟨hc, hplain⟩
  · simp only [List.mem_cons, List.not_mem_nil, or_false] at hb
    rcases hb with rfl | rfl | rfl
    · exact .inr (by decide)
    · exact .inr (isEscape_upperDigit (by omega))
    · exact .inr (isEscape_upperDigit (by omega))

theorem percentEncode_cons_kept (hc : kept c = true) (hascii : c.toNat < 0x80) :
    percentEncode kept (c :: text) = c :: percentEncode kept text := by
  have hbyte : encodeByte kept (UInt8.ofNat c.toNat) = [c] := by
    rw [encodeByte, toNat_ofNat (by omega), Char.ofNat_toNat]
    simp [hascii, hc]
  rw [percentEncode, encode_cons, encodeChar_ascii hascii, percentEncodeBytes]
  simp only [List.singleton_append, List.flatMap_cons, hbyte]
  rfl

/-- Encoding changes nothing in what is kept anyway. -/
theorem percentEncode_eq_self (hkept : Admits kept) (h : ∀ c ∈ text, kept c = true) :
    percentEncode kept text = text := by
  induction text with
  | nil => rfl
  | cons c text ih =>
      have hc := h c List.mem_cons_self
      rw [percentEncode_cons_kept hc (ascii_of_plain (hkept.plain c hc)),
        ih fun c hc => h c (List.mem_cons_of_mem _ hc)]

/-- The first character of an encoding is the first of the text, or begins the escape of a byte
that is not kept. -/
theorem percentEncode_cons_cases (kept : Char → Bool) (c : Char) (text : List Char) :
    percentEncode kept (c :: text) = c :: percentEncode kept text ∧ kept c = true ∨
      ∃ b tail, percentEncode kept (c :: text) =
          '%' :: upperDigit (b / 16) :: upperDigit (b % 16) :: tail ∧
        b < 256 ∧ (b < 0x80 → kept (Char.ofNat b) = false) := by
  by_cases hascii : c.toNat < 0x80
  · cases hc : kept c with
    | true => exact .inl ⟨percentEncode_cons_kept hc hascii, rfl⟩
    | false =>
        refine .inr ⟨c.toNat, percentEncode kept text, ?_, by omega, fun _ => ?_⟩
        · have hbyte : encodeByte kept (UInt8.ofNat c.toNat) =
              ['%', upperDigit (c.toNat / 16), upperDigit (c.toNat % 16)] := by
            rw [encodeByte, toNat_ofNat (by omega), Char.ofNat_toNat]
            simp [hc]
          rw [percentEncode, encode_cons, encodeChar_ascii hascii, percentEncodeBytes]
          simp only [List.singleton_append, List.flatMap_cons, hbyte]
          rfl
        · rw [Char.ofNat_toNat, hc]
  · obtain ⟨b, tail, hbytes, -⟩ := next_encodeChar c []
    have hwide := wide_of_mem_encodeChar (Nat.not_lt.mp hascii) (hbytes ▸ List.mem_cons_self)
    refine .inr ⟨b.toNat, percentEncodeBytes kept (tail ++ encode text), ?_,
      UInt8.toNat_lt_size b, fun h => absurd h (by omega)⟩
    have hbyte : encodeByte kept b =
        ['%', upperDigit (b.toNat / 16), upperDigit (b.toNat % 16)] := by
      rw [encodeByte, if_neg (by simp; omega)]
    rw [percentEncode, encode_cons, hbytes, percentEncodeBytes, List.cons_append,
      List.flatMap_cons, hbyte]
    rfl

theorem percentEncode_eq_nil (h : percentEncode kept text = []) : text = [] := by
  cases text with
  | nil => rfl
  | cons c text =>
      rcases percentEncode_cons_cases kept c text with ⟨hkept, -⟩ | ⟨b, tail, hescape, -⟩
      · cases hkept.symm.trans h
      · cases hescape.symm.trans h

/-! ### Decoding -/

theorem percentDecode_cons_ne {b : UInt8} (hb : b ≠ 0x25) (bytes : Bytes) :
    percentDecode (b :: bytes) = b :: percentDecode bytes := by
  rw [percentDecode]
  exact fun _ _ _ h => absurd h hb

theorem percentDecode_eq_self (h : ∀ b ∈ bytes, b ≠ 0x25) : percentDecode bytes = bytes := by
  induction bytes with
  | nil => rfl
  | cons b bytes ih =>
      rw [percentDecode_cons_ne (h b List.mem_cons_self),
        ih fun b hb => h b (List.mem_cons_of_mem _ hb)]

/-- Decoding gives back what was encoded, if the sign of an escape is always escaped. -/
theorem percentDecode_encode (hkept : kept '%' = false) (bytes : Bytes) :
    percentDecode (encode (percentEncodeBytes kept bytes)) = bytes := by
  induction bytes with
  | nil => rfl
  | cons b bytes ih =>
      have hsmall : b.toNat < 256 := UInt8.toNat_lt_size b
      have hsplit : encode (percentEncodeBytes kept (b :: bytes)) =
          encode (encodeByte kept b) ++ encode (percentEncodeBytes kept bytes) := by
        rw [percentEncodeBytes, List.flatMap_cons, encode_append]
        rfl
      rw [hsplit]
      rcases encodeByte_cases kept b with ⟨hascii, hplain, hwritten⟩ | ⟨-, hwritten⟩
      · have hbyte : encode (encodeByte kept b) = [b] := by
          have hchar : (Char.ofNat b.toNat).toNat = b.toNat := toNat_char (.inl (by omega))
          rw [hwritten, encode_cons, encodeChar_ascii (by omega), hchar, UInt8.ofNat_toNat]
          rfl
        have hsign : b ≠ 0x25 := by
          rintro rfl
          exact Bool.false_ne_true (hkept.symm.trans hplain)
        rw [hbyte, List.singleton_append, percentDecode_cons_ne hsign, ih]
      · have hhigh : b.toNat / 16 < 16 := by omega
        have hlow : b.toNat % 16 < 16 := by omega
        have hdigit : ∀ n < 16, (upperDigit n).toNat < 0x80 := by decide
        have hbytes : encode (encodeByte kept b) =
            [0x25, UInt8.ofNat (upperDigit (b.toNat / 16)).toNat,
              UInt8.ofNat (upperDigit (b.toNat % 16)).toNat] := by
          rw [hwritten]
          simp [encode, encodeChar_ascii (hdigit _ hhigh), encodeChar_ascii (hdigit _ hlow)]
          rfl
        rw [hbytes]
        simp only [List.cons_append, List.nil_append]
        rw [percentDecode]
        have hvalue : 16 * (b.toNat / 16) + b.toNat % 16 = b.toNat := by omega
        simp only [hexDigit?_upperDigit hhigh, hexDigit?_upperDigit hlow, ih, hvalue,
          UInt8.ofNat_toNat]

end TickHost.Url
