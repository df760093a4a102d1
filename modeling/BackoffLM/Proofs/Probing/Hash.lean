import BackoffLM.Index.Probing
import Mathlib.Data.Nat.Bitwise

/-!
# Hashes of n-grams

The hash of an n-gram is made from its last word backwards, one word at a time, and no hash of two
words or more is the key of an empty bucket. From one hash different words lead to different ones
(`extendHash_inj`). What a word brings (`wordHash`) is its number times an odd constant, and the
inverse of the constant gives the number back. So exclusive or keeps words apart, unless one word
cancels the hash before it and gets key 1 in place of 0: another word with key 1 would bring the
same up to the last bit (`wordHash_ne_xor_one`), that is, one more or one less. The numbers of the
two words would then differ by the inverse, which is more than 32 bits away from 0 on both sides
(`wordHash_ne_add_one`).
-/

namespace BackoffLM.Probing

/-! ## Keys -/

/-- No hash of a longer n-gram is the key of an empty bucket. -/
theorem extendHash_ne_emptyKey (current : UInt64) (word : WordId) :
    extendHash current word ≠ emptyKey := by
  unfold extendHash
  dsimp only
  split
  · decide
  · assumption

/-- The hash of an n-gram with an older word in front. -/
theorem ngramHash_cons {ngram : List WordId} (hne : ngram ≠ []) (word : WordId) :
    ngramHash (word :: ngram) = extendHash (ngramHash ngram) word := by
  unfold ngramHash
  rw [List.reverse_cons]
  cases hr : ngram.reverse with
  | nil => exact absurd (List.reverse_eq_nil_iff.mp hr) hne
  | cons newest older =>
    rw [List.cons_append]
    dsimp only
    rw [List.foldl_append, List.foldl_cons, List.foldl_nil]

/-- No hash of an n-gram of two words or more is the key of an empty bucket. -/
theorem ngramHash_ne_emptyKey {words : List WordId} (h : 2 ≤ words.length) :
    ngramHash words ≠ emptyKey := by
  match words, h with
  | word :: newest :: older, _ =>
    rw [ngramHash_cons (List.cons_ne_nil newest older)]
    exact extendHash_ne_emptyKey _ _

/-! ## What a word brings -/

/-- What a word brings to a hash. -/
def wordHash (word : WordId) : UInt64 := UInt64.ofNat (1 + word) * 17894857484156487943

/-- The inverse of the constant by which words are multiplied. -/
def wordInverse : UInt64 := 17094588466778068151

/-- A word cancels the hash before it and gets key 1, or is added to it. -/
theorem extendHash_eq (current : UInt64) (word : WordId) :
    extendHash current word =
      if current * 8978948897894561157 = wordHash word then 1
      else current * 8978948897894561157 ^^^ wordHash word := by
  unfold extendHash emptyKey
  dsimp only
  rw [← wordHash]
  simp only [UInt64.xor_eq_zero_iff]

/-- The inverse gives back the number of a word. -/
theorem wordHash_mul_wordInverse (word : WordId) :
    wordHash word * wordInverse = UInt64.ofNat (1 + word) := by
  have hinverse : (17894857484156487943 : UInt64) * wordInverse = 1 := by decide
  rw [wordHash, UInt64.mul_assoc, hinverse, UInt64.mul_one]

/-- The last bit makes a word one more or one less. -/
theorem xor_one_cases (x : UInt64) : x ^^^ 1 = x + 1 ∨ x = (x ^^^ 1) + 1 := by
  have hlt := x.toNat_lt
  have hxor : (x ^^^ 1).toNat = x.toNat ^^^ 1 := UInt64.toNat_xor x 1
  rcases Nat.even_or_odd x.toNat with heven | hodd
  · left
    rw [Nat.xor_one_of_even heven] at hxor
    have hbit := Nat.even_iff.mp heven
    rw [← UInt64.toNat_inj, hxor, UInt64.toNat_add, UInt64.toNat_one]
    omega
  · right
    rw [Nat.xor_one_of_odd hodd] at hxor
    have hbit := Nat.odd_iff.mp hodd
    rw [← UInt64.toNat_inj, UInt64.toNat_add, hxor, UInt64.toNat_one]
    omega

section Words

variable {a b : Nat}

/-- The number of a word of 32 bits, counted from 1, fits in 64. -/
theorem toNat_ofNat_one_add (h : a < 2 ^ 32) : (UInt64.ofNat (1 + a)).toNat = 1 + a :=
  UInt64.toNat_ofNat_of_lt' (by rw [UInt64.size]; omega)

/-- Different words bring something different. -/
theorem wordHash_inj (ha : a < 2 ^ 32) (hb : b < 2 ^ 32) (h : wordHash a = wordHash b) : a = b := by
  have hnumber : UInt64.ofNat (1 + a) = UInt64.ofNat (1 + b) := by
    rw [← wordHash_mul_wordInverse, h, wordHash_mul_wordInverse]
  rw [← UInt64.toNat_inj, toNat_ofNat_one_add ha, toNat_ofNat_one_add hb] at hnumber
  exact Nat.add_left_cancel hnumber

/-- No word brings one more than another. -/
theorem wordHash_ne_add_one (ha : a < 2 ^ 32) (hb : b < 2 ^ 32) :
    wordHash a ≠ wordHash b + 1 := by
  intro h
  have hnumber : UInt64.ofNat (1 + a) = UInt64.ofNat (1 + b) + wordInverse := by
    calc UInt64.ofNat (1 + a)
        = (wordHash b + 1) * wordInverse := by rw [← wordHash_mul_wordInverse, h]
      _ = UInt64.ofNat (1 + b) + wordInverse := by
          rw [UInt64.add_mul, wordHash_mul_wordInverse, UInt64.one_mul]
  -- The inverse is further from 0 than two words are from one another, also around the end.
  have hinverse : wordInverse.toNat = 17094588466778068151 := rfl
  rw [← UInt64.toNat_inj, UInt64.toNat_add, toNat_ofNat_one_add ha, toNat_ofNat_one_add hb,
    hinverse] at hnumber
  omega

/-- No two words bring the same up to the last bit. -/
theorem wordHash_ne_xor_one (ha : a < 2 ^ 32) (hb : b < 2 ^ 32) :
    wordHash a ≠ wordHash b ^^^ 1 := by
  intro h
  rcases xor_one_cases (wordHash b) with hmore | hless
  · exact wordHash_ne_add_one ha hb (h.trans hmore)
  · rw [← h] at hless
    exact wordHash_ne_add_one hb ha hless

/-- Added to a hash that another word cancels, no word gives the key of that one. -/
theorem xor_wordHash_ne_one {current : UInt64} (ha : a < 2 ^ 32) (hb : b < 2 ^ 32)
    (hcancels : current * 8978948897894561157 = wordHash a) :
    current * 8978948897894561157 ^^^ wordHash b ≠ 1 := by
  intro h
  refine wordHash_ne_xor_one hb ha ?_
  rw [← hcancels, ← h, ← UInt64.xor_assoc, UInt64.xor_self, UInt64.zero_xor]

/-- From one hash different words lead to different hashes. -/
theorem extendHash_inj {current : UInt64} (ha : a < 2 ^ 32) (hb : b < 2 ^ 32)
    (h : extendHash current a = extendHash current b) : a = b := by
  rw [extendHash_eq, extendHash_eq] at h
  -- Both words cancel the hash before them, or one of them does, or neither.
  split_ifs at h with hca hcb hcb
  · exact wordHash_inj ha hb (hca.symm.trans hcb)
  · exact absurd h.symm (xor_wordHash_ne_one ha hb hca)
  · exact absurd h (xor_wordHash_ne_one hb ha hcb)
  · exact wordHash_inj ha hb ((UInt64.xor_right_inj _).mp h)

/-- From every hash two different words of 32 bits lead to different keys, neither of them that of
an empty bucket, also when one of the words cancels the hash and key 1 stands in for 0. -/
theorem extendHash_ne_extendHash (current : UInt64) (ha : a < 2 ^ 32) (hb : b < 2 ^ 32)
    (hne : a ≠ b) :
    extendHash current a ≠ extendHash current b ∧
      extendHash current a ≠ emptyKey ∧ extendHash current b ≠ emptyKey :=
  ⟨fun h => hne (extendHash_inj ha hb h), extendHash_ne_emptyKey _ _, extendHash_ne_emptyKey _ _⟩

end Words

/-- A hash that word 7 cancels, so that its key stands in for that of an empty bucket, and the
greatest word of 32 bits. -/
theorem extendHash_ne_extendHash_cancelled :
    let current : UInt64 := 9196466011175428312
    7 < 2 ^ 32 ∧ 2 ^ 32 - 1 < 2 ^ 32 ∧ 7 ≠ 2 ^ 32 - 1 ∧ extendHash current 7 = 1 ∧
      extendHash current 7 ≠ extendHash current (2 ^ 32 - 1) ∧
      extendHash current 7 ≠ emptyKey ∧ extendHash current (2 ^ 32 - 1) ≠ emptyKey := by
  intro current
  exact ⟨by decide, by decide, by decide, by decide,
    extendHash_ne_extendHash current (by decide) (by decide) (by decide)⟩

end BackoffLM.Probing
