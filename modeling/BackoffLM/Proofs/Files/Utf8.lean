import BackoffLM.Text.Utf8
import Mathlib.Data.List.Basic

/-!
# Text is read back from UTF-8

`decode_encode` says that the decoder gives back every text from its bytes. A character of several
bytes is taken apart as the decoder sees it: the leading byte promises a range for the first tail
byte that the character keeps (`lead_two`, `lead_three`, `lead_four`), as no character is a
surrogate or above `U+10FFFF`, and each tail byte adds six bits (`decodeFrom_more`,
`decodeFrom_last`).
-/

namespace BackoffLM.Text.Utf8

/-! ## Tail bytes -/

/-- The byte of a small number has its value. -/
theorem toNat_byte {n : Nat} (h : n < 256) : (UInt8.ofNat n).toNat = n := by
  rw [UInt8.toNat_ofNat']
  exact Nat.mod_eq_of_lt h

/-- A tail byte is in the range that is promised. -/
theorem tail_inRange {low high : UInt8} {t : Nat} (ht : t < 64) (hlow : low.toNat ≤ t + 128)
    (hhigh : t + 128 ≤ high.toNat) :
    (low ≤ UInt8.ofNat (t + 128) && UInt8.ofNat (t + 128) ≤ high) = true := by
  rw [Bool.and_eq_true, decide_eq_true_eq, decide_eq_true_eq, UInt8.le_iff_toNat_le,
    UInt8.le_iff_toNat_le, toNat_byte (by omega)]
  exact ⟨hlow, hhigh⟩

/-- A tail byte that is not the last adds six bits to the character. -/
theorem decodeFrom_more (index : Nat) {p : Pending} {t : Nat} (ht : t < 64) (howed : 2 ≤ p.owed)
    (hlow : p.low.toNat ≤ t + 128) (hhigh : t + 128 ≤ p.high.toNat) (rest : List UInt8) :
    decodeFrom index (some p) (UInt8.ofNat (t + 128) :: rest) =
      decodeFrom index (some ⟨p.owed - 1, 0x80, 0xBF, p.bits * 64 + t, p.taken + 1⟩) rest := by
  rw [decodeFrom, if_pos (tail_inRange ht hlow hhigh), if_neg (by omega), toNat_byte (by omega),
    Nat.add_sub_cancel]

/-- The last tail byte ends the character. -/
theorem decodeFrom_last (index : Nat) {p : Pending} {t : Nat} (ht : t < 64) (howed : p.owed = 1)
    (hlow : p.low.toNat ≤ t + 128) (hhigh : t + 128 ≤ p.high.toNat) (rest : List UInt8) :
    decodeFrom index (some p) (UInt8.ofNat (t + 128) :: rest) =
      (Char.ofNat (p.bits * 64 + t) :: ·) <$> decodeFrom (index + p.taken + 1) none rest := by
  rw [decodeFrom, if_pos (tail_inRange ht hlow hhigh), if_pos (by omega), toNat_byte (by omega),
    Nat.add_sub_cancel]

/-- A leading byte opens a character. -/
theorem decodeFrom_lead (index : Nat) {b : UInt8} {p : Pending} (hb : 0x80 ≤ b.toNat)
    (hlead : lead b = some p) (rest : List UInt8) :
    decodeFrom index none (b :: rest) = decodeFrom index (some p) rest := by
  rw [decodeFrom, if_neg (by omega), hlead]

/-! ## Leading bytes -/

/-- The leading byte of a character of two bytes. -/
theorem lead_two {v : Nat} (hmin : 0x80 ≤ v) (hmax : v < 0x800) :
    lead (UInt8.ofNat (v / 64 % 32 + 192)) = some ⟨1, 0x80, 0xBF, v / 64, 1⟩ := by
  have hbits : v / 64 % 32 + 192 - 0xC0 = v / 64 := by omega
  unfold lead
  rw [toNat_byte (by omega)]
  dsimp only
  rw [if_neg (by omega), if_pos (by omega), hbits]

/-- The leading byte of a character of three bytes, and the range that its first tail byte has. -/
theorem lead_three {v : Nat} (hmin : 0x800 ≤ v) (hmax : v < 0x10000)
    (hvalid : v < 0xD800 ∨ 0xDFFF < v) :
    ∃ low high, lead (UInt8.ofNat (v / 4096 % 16 + 224)) = some ⟨2, low, high, v / 4096, 1⟩ ∧
      low.toNat ≤ v / 64 % 64 + 128 ∧ v / 64 % 64 + 128 ≤ high.toNat := by
  have hbits : v / 4096 % 16 + 224 - 0xE0 = v / 4096 := by omega
  have h9F : (0x9F : UInt8).toNat = 159 := rfl
  have hA0 : (0xA0 : UInt8).toNat = 160 := rfl
  have h80 : (0x80 : UInt8).toNat = 128 := rfl
  have hBF : (0xBF : UInt8).toNat = 191 := rfl
  unfold lead
  rw [toNat_byte (by omega)]
  dsimp only
  rw [if_neg (by omega), if_neg (by omega), hbits]
  simp only [beq_iff_eq]
  split
  · -- Below `U+0800` two bytes would do.
    exact ⟨_, _, rfl, by omega, by omega⟩
  · split
    · -- From `U+D800` to `U+DFFF` there are the surrogates.
      exact ⟨_, _, rfl, by omega, by omega⟩
    · rw [if_pos (by omega)]
      exact ⟨_, _, rfl, by omega, by omega⟩

/-- The leading byte of a character of four bytes, and the range that its first tail byte has. -/
theorem lead_four {v : Nat} (hmin : 0x10000 ≤ v) (hmax : v < 0x110000) :
    ∃ low high, lead (UInt8.ofNat (v / 262144 % 8 + 240)) = some ⟨3, low, high, v / 262144, 1⟩ ∧
      low.toNat ≤ v / 4096 % 64 + 128 ∧ v / 4096 % 64 + 128 ≤ high.toNat := by
  have hbits : v / 262144 % 8 + 240 - 0xF0 = v / 262144 := by omega
  have h90 : (0x90 : UInt8).toNat = 144 := rfl
  have h8F : (0x8F : UInt8).toNat = 143 := rfl
  have h80 : (0x80 : UInt8).toNat = 128 := rfl
  have hBF : (0xBF : UInt8).toNat = 191 := rfl
  unfold lead
  rw [toNat_byte (by omega)]
  dsimp only
  simp only [beq_iff_eq]
  rw [if_neg (by omega), if_neg (by omega), if_neg (by omega), if_neg (by omega),
    if_neg (by omega), hbits]
  split
  · -- Below `U+10000` three bytes would do.
    exact ⟨_, _, rfl, by omega, by omega⟩
  · split
    · exact ⟨_, _, rfl, by omega, by omega⟩
    · -- There is no character above `U+10FFFF`.
      rw [if_pos (by omega)]
      exact ⟨_, _, rfl, by omega, by omega⟩

/-! ## Characters and texts -/

/-- The bytes of a character are decoded as that character. -/
theorem decodeFrom_char (index : Nat) (c : Char) (rest : List UInt8) :
    ∃ next, decodeFrom index none (String.utf8EncodeChar c ++ rest) =
      (c :: ·) <$> decodeFrom next none rest := by
  have hchar : Char.ofNat c.val.toNat = c := Char.ofNat_toNat c
  have hvalid : c.val.toNat < 0xD800 ∨ (0xDFFF < c.val.toNat ∧ c.val.toNat < 0x110000) := c.valid
  unfold String.utf8EncodeChar
  dsimp only
  generalize c.val.toNat = v at hchar hvalid
  have h80 : (0x80 : UInt8).toNat = 128 := rfl
  have hBF : (0xBF : UInt8).toNat = 191 := rfl
  have hbyte : ∀ n, n < 256 → (UInt8.ofNat n).toNat = n := fun n hn => toNat_byte hn
  split
  · -- One byte below `0x80`.
    have hv := hbyte v (by omega)
    rw [List.singleton_append, decodeFrom, if_pos (by omega), hv, hchar]
    exact ⟨index + 1, rfl⟩
  split
  · have hlead := lead_two (v := v) (by omega) (by omega)
    have hjoin : v / 64 * 64 + v % 64 = v := by omega
    rw [List.cons_append, List.singleton_append,
      decodeFrom_lead index (by rw [hbyte _ (by omega)]; omega) hlead,
      decodeFrom_last index (by omega) rfl (by dsimp only; omega) (by dsimp only; omega)]
    dsimp only
    rw [hjoin, hchar]
    exact ⟨_, rfl⟩
  split
  · obtain ⟨low, high, hlead, hlow, hhigh⟩ := lead_three (v := v) (by omega) (by omega) (by omega)
    have hjoin : (v / 4096 * 64 + v / 64 % 64) * 64 + v % 64 = v := by omega
    rw [List.cons_append, List.cons_append, List.singleton_append,
      decodeFrom_lead index (by rw [hbyte _ (by omega)]; omega) hlead,
      decodeFrom_more index (by omega) (Nat.le_refl 2) hlow hhigh,
      decodeFrom_last index (by omega) rfl (by dsimp only; omega) (by dsimp only; omega)]
    dsimp only
    rw [hjoin, hchar]
    exact ⟨_, rfl⟩
  · obtain ⟨low, high, hlead, hlow, hhigh⟩ := lead_four (v := v) (by omega) (by omega)
    have hjoin : ((v / 262144 * 64 + v / 4096 % 64) * 64 + v / 64 % 64) * 64 + v % 64 = v := by
      omega
    rw [List.cons_append, List.cons_append, List.cons_append, List.singleton_append,
      decodeFrom_lead index (by rw [hbyte _ (by omega)]; omega) hlead,
      decodeFrom_more index (by omega) (Nat.le_succ 2) hlow hhigh,
      decodeFrom_more index (by omega) (Nat.le_refl 2) (by dsimp only; omega)
        (by dsimp only; omega),
      decodeFrom_last index (by omega) rfl (by dsimp only; omega) (by dsimp only; omega)]
    dsimp only
    rw [hjoin, hchar]
    exact ⟨_, rfl⟩

/-- The bytes of a text are decoded as that text. -/
theorem decode_encode (cs : List Char) : decode (encode cs) = .ok cs := by
  have hfrom : ∀ index, decodeFrom index none (encode cs) = .ok cs := by
    induction cs with
    | nil => exact fun _ => rfl
    | cons c cs ih =>
      intro index
      obtain ⟨next, hnext⟩ := decodeFrom_char index c (encode cs)
      rw [encode, List.flatMap_cons]
      change decodeFrom index none (String.utf8EncodeChar c ++ encode cs) = _
      rw [hnext, ih next]
      rfl
  exact hfrom 0

end BackoffLM.Text.Utf8
