import TickHost.Text.Utf8

/-!
Text comes back from its bytes: reading what was written gives the same text, whether it is read
strictly or with replacements. Characters of ASCII are their own bytes, and bytes of ASCII are
found nowhere but in them.
-/

namespace TickHost.Utf8

variable {c : Char} {text : List Char} {bytes rest : Bytes}

theorem toNat_ofNat {n : Nat} (h : n < 256) : (UInt8.ofNat n).toNat = n := by
  rw [UInt8.toNat_ofNat', Nat.mod_eq_of_lt h]

theorem toNat_char {n : Nat} (h : n.isValidChar) : (Char.ofNat n).toNat = n := by
  rw [Char.ofNat, dif_pos h]
  rfl

/-- A byte in its range adds six bits. -/
theorem follow_cons {n low high : Nat} {ranges : List (Nat × Nat)} {b : Nat} (hb : b < 256)
    (hlow : low ≤ b) (hhigh : b ≤ high) :
    follow n ((low, high) :: ranges) (UInt8.ofNat b :: rest) =
      follow (n * 64 + b % 64) ranges rest := by
  simp [follow, toNat_ofNat hb, hlow, hhigh]

/-- The first byte of a character announces the others, and they are read to the end. -/
theorem next_of_announced {first n : Nat} {ranges : List (Nat × Nat)} (hfirst : first < 256)
    (hannounced : announced? first = some (n, ranges))
    (hfollow : follow n ranges bytes = (some c.toNat, rest)) :
    next (UInt8.ofNat first) bytes = (some c, rest) := by
  rw [next, toNat_ofNat hfirst, hannounced]
  simp only [hfollow, Option.map_some, Char.ofNat_toNat]

theorem next_two (hlow : 0x80 ≤ c.toNat) (hhigh : c.toNat < 0x800) :
    next (UInt8.ofNat (0xc0 + c.toNat / 64)) ([UInt8.ofNat (0x80 + c.toNat % 64)] ++ rest) =
      (some c, rest) := by
  have hvalue : c.toNat / 64 * 64 + (0x80 + c.toNat % 64) % 64 = c.toNat := by omega
  have hannounced : announced? (0xc0 + c.toNat / 64) = some (c.toNat / 64, [(0x80, 0xbf)]) := by
    unfold announced?
    rw [if_neg (by omega), if_pos (by omega), Nat.add_sub_cancel_left]
  refine next_of_announced (by omega) hannounced ?_
  rw [List.singleton_append, follow_cons (by omega) (by omega) (by omega), hvalue]
  rfl

/-- The range of the second byte depends on the first one, which keeps surrogates out. -/
theorem next_three (hlow : 0x800 ≤ c.toNat) (hhigh : c.toNat < 0x10000) :
    next (UInt8.ofNat (0xe0 + c.toNat / 4096)) ([UInt8.ofNat (0x80 + c.toNat / 64 % 64),
      UInt8.ofNat (0x80 + c.toNat % 64)] ++ rest) = (some c, rest) := by
  have hvalid : c.toNat < 0xd800 ∨ 0xdfff < c.toNat ∧ c.toNat < 0x110000 := c.valid
  have hvalue : (c.toNat / 4096 * 64 + (0x80 + c.toNat / 64 % 64) % 64) * 64 +
      (0x80 + c.toNat % 64) % 64 = c.toNat := by omega
  have hannounced : announced? (0xe0 + c.toNat / 4096) = some (c.toNat / 4096,
      [(if c.toNat / 4096 = 0 then 0xa0 else 0x80, if c.toNat / 4096 = 13 then 0x9f else 0xbf),
        (0x80, 0xbf)]) := by
    unfold announced?
    rw [if_neg (by omega), if_neg (by omega)]
    grind
  refine next_of_announced (by omega) hannounced ?_
  rw [List.cons_append, List.singleton_append,
    follow_cons (by omega) (by split <;> omega) (by split <;> omega),
    follow_cons (by omega) (by omega) (by omega), hvalue]
  rfl

theorem next_four (hlow : 0x10000 ≤ c.toNat) :
    next (UInt8.ofNat (0xf0 + c.toNat / 262144)) ([UInt8.ofNat (0x80 + c.toNat / 4096 % 64),
      UInt8.ofNat (0x80 + c.toNat / 64 % 64), UInt8.ofNat (0x80 + c.toNat % 64)] ++ rest) =
        (some c, rest) := by
  have hvalid : c.toNat < 0xd800 ∨ 0xdfff < c.toNat ∧ c.toNat < 0x110000 := c.valid
  have hvalue : ((c.toNat / 262144 * 64 + (0x80 + c.toNat / 4096 % 64) % 64) * 64 +
      (0x80 + c.toNat / 64 % 64) % 64) * 64 + (0x80 + c.toNat % 64) % 64 = c.toNat := by omega
  have hannounced : announced? (0xf0 + c.toNat / 262144) = some (c.toNat / 262144,
      [(if c.toNat / 262144 = 0 then 0x90 else 0x80,
        if c.toNat / 262144 = 4 then 0x8f else 0xbf), (0x80, 0xbf), (0x80, 0xbf)]) := by
    unfold announced?
    rw [if_neg (by omega), if_neg (by omega), if_neg (by omega), if_neg (by omega),
      if_neg (by omega)]
    grind
  refine next_of_announced (by omega) hannounced ?_
  rw [List.cons_append, List.cons_append, List.singleton_append,
    follow_cons (by omega) (by split <;> omega) (by split <;> omega),
    follow_cons (by omega) (by omega) (by omega), follow_cons (by omega) (by omega) (by omega),
    hvalue]
  rfl

/-- The bytes of a character are read as this character, whatever follows. -/
theorem next_encodeChar (c : Char) (rest : Bytes) : ∃ b tail, encodeChar c = b :: tail ∧
    next b (tail ++ rest) = (some c, rest) := by
  simp only [encodeChar]
  split
  · next hone =>
      have hannounced : announced? c.toNat = some (c.toNat, []) := by simp [announced?, hone]
      exact ⟨_, _, rfl, next_of_announced (by omega) hannounced rfl⟩
  split
  · next hone htwo => exact ⟨_, _, rfl, next_two (by omega) htwo⟩
  split
  · next htwo hthree => exact ⟨_, _, rfl, next_three (by omega) hthree⟩
  · next hthree => exact ⟨_, _, rfl, next_four (by omega)⟩

theorem encode_cons (c : Char) (text : List Char) :
    encode (c :: text) = encodeChar c ++ encode text :=
  List.flatMap_cons

theorem encodeChar_ascii (hc : c.toNat < 0x80) : encodeChar c = [UInt8.ofNat c.toNat] :=
  if_pos hc

/-- The bytes of any other character are none of ASCII. -/
theorem wide_of_mem_encodeChar {b : UInt8} (hc : 0x80 ≤ c.toNat) (hb : b ∈ encodeChar c) :
    0x80 ≤ b.toNat := by
  have hvalid : c.toNat < 0xd800 ∨ 0xdfff < c.toNat ∧ c.toNat < 0x110000 := c.valid
  have hwide : ∀ n, 0x80 ≤ n → n < 256 → b = UInt8.ofNat n → 0x80 ≤ b.toNat := by
    rintro n hlow hhigh rfl
    rwa [toNat_ofNat hhigh]
  unfold encodeChar at hb
  simp only at hb
  rw [if_neg (by omega)] at hb
  split at hb
  · rcases List.mem_cons.mp hb with hb | hb
    · exact hwide _ (by omega) (by omega) hb
    · exact hwide _ (by omega) (by omega) (List.mem_singleton.mp hb)
  split at hb <;> simp only [List.mem_cons, List.not_mem_nil, or_false] at hb
  · rcases hb with hb | hb | hb <;> exact hwide _ (by omega) (by omega) hb
  · rcases hb with hb | hb | hb | hb <;> exact hwide _ (by omega) (by omega) hb

/-- Where a byte of ASCII is, there is its character. -/
theorem mem_of_mem_encode {b : UInt8} (hb : b ∈ encode text) (hascii : b.toNat < 0x80) :
    ∃ c ∈ text, c.toNat = b.toNat := by
  obtain ⟨c, hc, hb⟩ := List.mem_flatMap.mp hb
  refine ⟨c, hc, ?_⟩
  by_cases hsmall : c.toNat < 0x80
  · rw [encodeChar_ascii hsmall] at hb
    rw [List.mem_singleton.mp hb, toNat_ofNat (by omega)]
  · have hwide := wide_of_mem_encodeChar (by omega) hb
    omega

theorem encode_append (text more : List Char) :
    encode (text ++ more) = encode text ++ encode more :=
  List.flatMap_append

theorem decode?_encode (text : List Char) : decode? (encode text) = some text := by
  induction text with
  | nil => rw [encode, List.flatMap_nil, decode?]
  | cons c text ih =>
      obtain ⟨b, tail, hbytes, hnext⟩ := next_encodeChar c (encode text)
      rw [encode_cons, hbytes, List.cons_append, decode?]
      split
      · rename_i hnone
        cases hnone.symm.trans hnext
      · rename_i hsome
        cases hsome.symm.trans hnext
        rw [ih, Option.map_some]

theorem decodeLossy_encode (text : List Char) : decodeLossy (encode text) = text := by
  induction text with
  | nil => rw [encode, List.flatMap_nil, decodeLossy]
  | cons c text ih =>
      obtain ⟨b, tail, hbytes, hnext⟩ := next_encodeChar c (encode text)
      rw [encode_cons, hbytes, List.cons_append, decodeLossy]
      split
      rename_i hsome
      cases hsome.symm.trans hnext
      rw [ih, Option.getD_some]

end TickHost.Utf8
