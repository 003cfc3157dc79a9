import InlineBinding.Text.Utf8

/-!
# Decoding what was encoded

A text is read back from its bytes. Each character gives a lead byte that tells how many more bytes
there are, and the bits of these make up its code.
-/
namespace InlineBinding.Text.Utf8

/-- The bytes of a code point, by the size of its code. -/
inductive Spells (c : Char) : Bytes → Prop where
  | one (h : c.toNat < 0x80) : Spells c [UInt8.ofNat c.toNat]
  | two (h : 0x80 ≤ c.toNat ∧ c.toNat < 0x800) :
      Spells c [UInt8.ofNat (c.toNat / 64 + 192), UInt8.ofNat (c.toNat % 64 + 128)]
  | three (h : 0x800 ≤ c.toNat ∧ c.toNat < 0x10000 ∧ (c.toNat < 0xd800 ∨ 0xdfff < c.toNat)) :
      Spells c [UInt8.ofNat (c.toNat / 4096 + 224), UInt8.ofNat (c.toNat / 64 % 64 + 128),
        UInt8.ofNat (c.toNat % 64 + 128)]
  | four (h : 0x10000 ≤ c.toNat ∧ c.toNat < 0x110000) :
      Spells c [UInt8.ofNat (c.toNat / 262144 + 240), UInt8.ofNat (c.toNat / 4096 % 64 + 128),
        UInt8.ofNat (c.toNat / 64 % 64 + 128), UInt8.ofNat (c.toNat % 64 + 128)]

theorem spells_utf8EncodeChar (c : Char) : Spells c (String.utf8EncodeChar c) := by
  have hv : c.toNat < 0xd800 ∨ 0xdfff < c.toNat ∧ c.toNat < 0x110000 := c.valid
  have htoNat : c.val.toNat = c.toNat := rfl
  rw [String.utf8EncodeChar]
  simp only [htoNat]
  split
  · exact .one (by omega)
  · split
    · rw [Nat.mod_eq_of_lt (by omega : c.toNat / 64 < 32)]
      exact .two (by omega)
    · split
      · rw [Nat.mod_eq_of_lt (by omega : c.toNat / 4096 < 16)]
        exact .three (by omega)
      · rw [Nat.mod_eq_of_lt (by omega : c.toNat / 262144 < 8)]
        exact .four (by omega)

theorem tail_cons {more low high bits n : Nat} (hn : n < 256) (hl : low ≤ n ∧ n ≤ high)
    (rest : Bytes) : tail (more + 1) low high bits (UInt8.ofNat n :: rest) =
      tail more 0x80 0xbf (bits * 64 + (n - 0x80)) rest := by
  have hbyte : (UInt8.ofNat n).toNat = n := UInt8.toNat_ofNat_of_lt' hn
  rw [tail, hbyte, if_pos (by simpa using hl)]

theorem decodeFrom_lead {offset n more low high bits : Nat} (hn : n < 256)
    (hl : lead? n = some ⟨more, low, high, bits⟩) {c : Char} {rest : Bytes}
    (ht : tail more low high bits rest = .ok c.toNat) :
    decodeFrom offset 0 (UInt8.ofNat n :: rest) =
      (c :: ·) <$> decodeFrom (offset + 1) more rest := by
  have hbyte : (UInt8.ofNat n).toNat = n := UInt8.toNat_ofNat_of_lt' hn
  rw [decodeFrom, hbyte]
  simp only [hl, ht, Char.ofNat_toNat]

/-- The bytes of a character are read as that character, whatever follows. -/
theorem Spells.decodeFrom_append {c : Char} {bytes : Bytes} (h : Spells c bytes) (offset : Nat)
    (rest : Bytes) : ∃ n, decodeFrom offset 0 (bytes ++ rest) =
      (c :: ·) <$> decodeFrom (offset + n) 0 rest := by
  cases h with
  | one h =>
    have hlead : lead? c.toNat = some ⟨0, 0, 0, c.toNat⟩ := by rw [lead?, if_pos h]
    exact ⟨1, decodeFrom_lead (by omega) hlead rfl⟩
  | two h =>
    have hlead : lead? (c.toNat / 64 + 192) = some ⟨1, 0x80, 0xbf, c.toNat / 64⟩ := by
      rw [lead?, if_neg (by omega), if_neg (by omega), if_pos (by omega), Nat.add_sub_cancel]
    simp only [List.cons_append, List.nil_append]
    refine ⟨2, decodeFrom_lead (by omega) hlead ?_⟩
    rw [tail_cons (by omega) (by omega)]
    exact congrArg Except.ok (by omega)
  | three h =>
    have hlead : lead? (c.toNat / 4096 + 224) = some ⟨2,
        if c.toNat / 4096 = 0 then 0xa0 else 0x80,
        if c.toNat / 4096 = 13 then 0x9f else 0xbf, c.toNat / 4096⟩ := by
      rw [lead?, if_neg (by omega), if_neg (by omega), if_neg (by omega)]
      by_cases h0 : c.toNat / 4096 = 0
      · simp [h0]
      · by_cases hd : c.toNat / 4096 = 13
        · simp [hd]
        · rw [if_neg (by omega), if_neg (by omega), if_pos (by omega), Nat.add_sub_cancel, if_neg h0,
            if_neg hd]
    simp only [List.cons_append, List.nil_append]
    refine ⟨3, decodeFrom_lead (by omega) hlead ?_⟩
    rw [tail_cons (by omega) (by split <;> split <;> omega), tail_cons (by omega) (by omega)]
    exact congrArg Except.ok (by omega)
  | four h =>
    have hlead : lead? (c.toNat / 262144 + 240) = some ⟨3,
        if c.toNat / 262144 = 0 then 0x90 else 0x80,
        if c.toNat / 262144 = 4 then 0x8f else 0xbf, c.toNat / 262144⟩ := by
      rw [lead?, if_neg (by omega), if_neg (by omega), if_neg (by omega), if_neg (by omega),
        if_neg (by omega), if_neg (by omega)]
      by_cases h0 : c.toNat / 262144 = 0
      · simp [h0]
      · by_cases h4 : c.toNat / 262144 = 4
        · simp [h4]
        · rw [if_neg (by omega), if_pos (by omega), Nat.add_sub_cancel, if_neg h0, if_neg h4]
    simp only [List.cons_append, List.nil_append]
    refine ⟨4, decodeFrom_lead (by omega) hlead ?_⟩
    rw [tail_cons (by omega) (by split <;> split <;> omega), tail_cons (by omega) (by omega),
      tail_cons (by omega) (by omega)]
    exact congrArg Except.ok (by omega)

theorem decodeFrom_encode (offset : Nat) (s : Text) : decodeFrom offset 0 (encode s) = .ok s := by
  induction s generalizing offset with
  | nil => rfl
  | cons c s ih =>
    obtain ⟨n, hn⟩ := (spells_utf8EncodeChar c).decodeFrom_append offset (encode s)
    have hcons : encode (c :: s) = String.utf8EncodeChar c ++ encode s := List.flatMap_cons
    rw [hcons, hn, ih]
    rfl

@[simp] theorem decode_encode (s : Text) : decode (encode s) = .ok s := decodeFrom_encode 0 s

end InlineBinding.Text.Utf8
