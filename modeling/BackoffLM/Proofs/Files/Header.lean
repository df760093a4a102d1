import BackoffLM.Container
import BackoffLM.Proofs.Files.Codec

/-!
# Headers of binary files

A header is read back from the front of its file, and what is read is what the file opens with:
`Header.parse_eq_some_iff` says that `parse` gives a header exactly of the files that open with its
bytes, where the reserved byte may be anything, and `Header.parse_exact` says the same of `encode`.
A file is recognized by as many bytes as the longest header takes, and that is enough:
`Header.recognize_eq_parse` says that more bytes change nothing, neither the header nor the reason
why there is none.
-/

namespace BackoffLM.Header

/-- Headers that can be read: of the current version, with an order that models may have, and with
a count for each order. -/
structure Fits (h : Header) : Prop where
  version_eq : h.version = currentVersion
  one_le_order : 1 ≤ h.order.toNat
  order_le : h.order.toNat ≤ maxOrder
  length_counts : h.counts.length = h.order.toNat

/-- The place of the reserved byte. -/
def reservedPlace : Nat := 11

/-- The bytes of a header with a given reserved byte. -/
def encodeWith (h : Header) (reserved : UInt8) : List UInt8 := h.encode.set reservedPlace reserved

/-! ## Counts -/

/-- Counts one after another are read back. -/
theorem readCounts_flatMap (counts : List UInt64) (rest : List UInt8) :
    readCounts counts.length ((counts.flatMap fun n => littleEndian 8 n.toNat) ++ rest) =
      counts := by
  induction counts with
  | nil => rfl
  | cons n counts ih =>
    have hlen := length_littleEndian 8 n.toNat
    rw [List.length_cons, readCounts, List.flatMap_cons, List.append_assoc, List.take_left' hlen,
      List.drop_left' hlen, ih, ofLittleEndian_of_lt n.toNat_lt, UInt64.ofNat_toNat]

/-- Counts take eight bytes each. -/
theorem length_flatMap_counts (counts : List UInt64) :
    (counts.flatMap fun n => littleEndian 8 n.toNat).length = 8 * counts.length := by
  induction counts with
  | nil => rfl
  | cons n counts ih =>
    rw [List.flatMap_cons, List.length_append, length_littleEndian, ih, List.length_cons]
    omega

/-- As many counts are read as are asked for. -/
theorem length_readCounts (count : Nat) (bytes : List UInt8) :
    (readCounts count bytes).length = count := by
  induction count generalizing bytes with
  | zero => rfl
  | succ count ih => rw [readCounts, List.length_cons, ih]

/-- The counts that are read are written as the bytes that they were read from. -/
theorem flatMap_readCounts {count : Nat} {bytes : List UInt8} (h : 8 * count ≤ bytes.length) :
    ((readCounts count bytes).flatMap fun n => littleEndian 8 n.toNat) =
      bytes.take (8 * count) := by
  induction count generalizing bytes with
  | zero => rfl
  | succ count ih =>
    have hword : (bytes.take 8).length = 8 := List.length_take_of_le (by omega)
    have hsplit : 8 * (count + 1) = 8 + 8 * count := by omega
    rw [readCounts, List.flatMap_cons, littleEndian_word64 hword,
      ih (by rw [List.length_drop]; omega), hsplit, List.take_add]

/-- Bytes after the counts do not matter. -/
theorem readCounts_take {count n : Nat} (h : 8 * count ≤ n) (bytes : List UInt8) :
    readCounts count (bytes.take n) = readCounts count bytes := by
  induction count generalizing bytes n with
  | zero => rfl
  | succ count ih =>
    rw [readCounts, readCounts, List.take_take, Nat.min_eq_left (by omega), List.drop_take,
      ih (by omega)]

/-! ## The bytes of a header -/

/-- The bytes of a header have its size. -/
theorem length_encode (h : Header) : h.encode.length = h.size := by
  unfold encode size fixedSize
  rw [List.length_append, List.length_append, List.length_append, List.length_append,
    length_littleEndian, length_littleEndian, length_flatMap_counts]
  rfl

/-- The reserved byte has its place whatever it is. -/
theorem length_encodeWith (h : Header) (reserved : UInt8) :
    (h.encodeWith reserved).length = h.size := by
  rw [encodeWith, List.length_set, length_encode]

/-- The reserved byte is written as zero. -/
theorem encodeWith_zero (h : Header) : h.encodeWith 0 = h.encode := rfl

/-- The last reserved byte that is set counts. -/
theorem set_encodeWith (h : Header) (reserved other : UInt8) :
    (h.encodeWith reserved).set reservedPlace other = h.encodeWith other := by
  rw [encodeWith, List.set_set, encodeWith]

/-- A file that opens with a header: the magic bytes, four bytes, two words, the counts and the
rest. -/
theorem encodeWith_append (h : Header) (reserved : UInt8) (rest : List UInt8) :
    h.encodeWith reserved ++ rest = magic ++ (h.version :: h.kindCode :: h.order :: reserved ::
      (littleEndian 4 h.checksum.toNat ++ (littleEndian 8 h.payloadLength.toNat ++
        ((h.counts.flatMap fun n => littleEndian 8 n.toNat) ++ rest)))) := by
  have hfields : h.encodeWith reserved = magic ++ [h.version, h.kindCode, h.order, reserved] ++
    littleEndian 4 h.checksum.toNat ++ littleEndian 8 h.payloadLength.toNat ++
      h.counts.flatMap fun n => littleEndian 8 n.toNat := rfl
  rw [hfields]
  simp only [List.append_assoc, List.cons_append, List.nil_append]

/-! ## Reading -/

/-- A header that fits is read from the front of its file. -/
theorem parse_encodeWith {h : Header} (hfits : h.Fits) (reserved : UInt8) (rest : List UInt8) :
    parse (h.encodeWith reserved ++ rest) = .ok (some h) := by
  obtain ⟨hversion, hpos, hmax, hcounts⟩ := hfits
  have hmagic : magic.length = 8 := rfl
  have hchecksum := length_littleEndian 4 h.checksum.toNat
  have hlength := length_littleEndian 8 h.payloadLength.toNat
  -- The order is checked as a number of 8 bits.
  have horder : ¬ (h.order = 0 ∨ maxOrder < h.order.toNat) := by
    rintro (h0 | hlt)
    · rw [h0] at hpos
      exact absurd hpos (by decide)
    · omega
  have hwords : (littleEndian 4 h.checksum.toNat ++ (littleEndian 8 h.payloadLength.toNat ++
      ((h.counts.flatMap fun n => littleEndian 8 n.toNat) ++ rest))).drop 12 =
        (h.counts.flatMap fun n => littleEndian 8 n.toNat) ++ rest := by
    rw [← List.append_assoc]
    exact List.drop_left' (by rw [List.length_append, hchecksum, hlength])
  unfold parse
  rw [encodeWith_append, List.take_left' hmagic, if_neg (not_not_intro rfl),
    List.drop_left' hmagic]
  dsimp only
  rw [if_neg (by simp only [List.length_append, hchecksum, hlength]; omega),
    if_neg (not_not_intro hversion), if_neg horder, hwords,
    if_neg (by rw [List.length_append, length_flatMap_counts]; omega), List.take_left' hchecksum,
    List.drop_left' hchecksum, List.take_left' hlength, ofLittleEndian_of_lt h.checksum.toNat_lt,
    ofLittleEndian_of_lt h.payloadLength.toNat_lt, ← hcounts, readCounts_flatMap,
    UInt32.ofNat_toNat, UInt64.ofNat_toNat]

/-- A header that is read fits, and the file opens with its bytes. -/
theorem exists_encodeWith_of_parse {bytes : List UInt8} {h : Header}
    (hparse : parse bytes = .ok (some h)) :
    h.Fits ∧ ∃ reserved rest, bytes = h.encodeWith reserved ++ rest := by
  unfold parse at hparse
  split at hparse
  · simp at hparse
  rename_i hmagic
  split at hparse
  case h_2 => simp at hparse
  case h_1 version kindCode order reserved words hdrop =>
    obtain ⟨hwords, hparse⟩ := ite_error_eq_ok.mp hparse
    obtain ⟨hversion, hparse⟩ := ite_error_eq_ok.mp hparse
    obtain ⟨horder, hparse⟩ := ite_error_eq_ok.mp hparse
    obtain ⟨hcounts, hparse⟩ := ite_error_eq_ok.mp hparse
    rw [List.length_drop] at hcounts
    rw [Except.ok.injEq, Option.some.injEq] at hparse
    subst hparse
    -- The order was refused when it was 0 or above the highest, as numbers of 8 bits.
    have hpos : order.toNat ≠ 0 := fun h0 => horder (Or.inl (UInt8.toNat_inj.mp h0))
    have hmax : ¬ maxOrder < order.toNat := fun hlt => horder (Or.inr hlt)
    refine ⟨⟨not_not.mp hversion, Nat.pos_of_ne_zero hpos, Nat.not_lt.mp hmax,
      length_readCounts _ _⟩, reserved, words.drop (12 + 8 * order.toNat), ?_⟩
    have hchecksum : (words.take 4).length = 4 := List.length_take_of_le (by omega)
    have hlength : ((words.drop 4).take 8).length = 8 :=
      List.length_take_of_le (by rw [List.length_drop]; omega)
    rw [encodeWith_append]
    dsimp only
    rw [littleEndian_word32 hchecksum, littleEndian_word64 hlength,
      flatMap_readCounts (by rw [List.length_drop]; omega)]
    calc bytes
        = magic ++ (version :: kindCode :: order :: reserved :: words) := by
          rw [← hdrop, ← not_not.mp hmagic, List.take_append_drop]
      _ = _ := by
          rw [← List.drop_drop, List.take_append_drop, ← List.drop_drop (i := 8) (j := 4),
            List.take_append_drop, List.take_append_drop]

/-- A header is read exactly from the files that open with its bytes. -/
theorem parse_eq_some_iff {bytes : List UInt8} {h : Header} :
    parse bytes = .ok (some h) ↔
      h.Fits ∧ ∃ reserved rest, bytes = h.encodeWith reserved ++ rest := by
  constructor
  · exact exists_encodeWith_of_parse
  · rintro ⟨hfits, reserved, rest, rfl⟩
    exact parse_encodeWith hfits reserved rest

/-- Reading and writing undo each other: a header that is written is read back, whatever follows,
and a header that is read is written as the bytes that the file opens with, but for the reserved
byte. -/
theorem parse_exact :
    (∀ h : Header, h.Fits → ∀ rest, parse (h.encode ++ rest) = .ok (some h)) ∧
      ∀ (bytes : List UInt8) (h : Header), parse bytes = .ok (some h) →
        h.Fits ∧ h.size ≤ bytes.length ∧
          h.encode = (bytes.take h.size).set reservedPlace 0 := by
  constructor
  · intro h hfits rest
    exact parse_encodeWith hfits 0 rest
  · intro bytes h hparse
    obtain ⟨hfits, reserved, rest, rfl⟩ := exists_encodeWith_of_parse hparse
    refine ⟨hfits, ?_, ?_⟩
    · rw [List.length_append, length_encodeWith]
      exact Nat.le_add_right _ _
    · rw [List.take_left' (length_encodeWith h reserved), set_encodeWith, encodeWith_zero]

/-- The header of a payload of three bytes, whose kind is none that there is. -/
def sampleHeader : Header := ⟨currentVersion, 42, 2, 0x01020304, 3, [1, 0xFFFFFFFFFFFFFFFF]⟩

/-- The header is read back before other bytes, and from a file whose reserved byte is not zero. -/
theorem parse_exact_sample :
    sampleHeader.Fits ∧
      parse (sampleHeader.encode ++ [5, 6, 7]) = .ok (some sampleHeader) ∧
      parse (sampleHeader.encodeWith 9 ++ [5, 6, 7]) = .ok (some sampleHeader) ∧
      sampleHeader.encode =
        ((sampleHeader.encodeWith 9 ++ [5, 6, 7]).take 40).set reservedPlace 0 := by
  have hfits : sampleHeader.Fits := ⟨rfl, by decide, by decide, rfl⟩
  have hparse : parse (sampleHeader.encodeWith 9 ++ [5, 6, 7]) = .ok (some sampleHeader) :=
    toOption_eq_some.mp (by decide)
  exact ⟨hfits, parse_exact.1 sampleHeader hfits [5, 6, 7], hparse,
    (parse_exact.2 _ sampleHeader hparse).2.2⟩

/-! ## Recognizing -/

/-- There is no header exactly when the file does not start with the magic bytes. -/
theorem parse_eq_none_iff {bytes : List UInt8} : parse bytes = .ok none ↔ ¬ magic <+: bytes := by
  have hmagic : magic <+: bytes ↔ bytes.take 8 = magic := by
    rw [List.prefix_iff_eq_take]
    exact eq_comm
  rw [hmagic, parse]
  by_cases htake : bytes.take 8 = magic
  · rw [if_neg (not_not_intro htake)]
    refine iff_of_false (fun hparse => ?_) (not_not_intro htake)
    split at hparse
    case h_2 => simp at hparse
    case h_1 =>
      -- Past all the checks there is a header.
      obtain ⟨-, hparse⟩ := ite_error_eq_ok.mp hparse
      obtain ⟨-, hparse⟩ := ite_error_eq_ok.mp hparse
      obtain ⟨-, hparse⟩ := ite_error_eq_ok.mp hparse
      obtain ⟨-, hparse⟩ := ite_error_eq_ok.mp hparse
      simp at hparse
  · rw [if_pos htake]
    exact iff_of_true rfl htake

/-- As many bytes as the longest header takes decide whether there is a header, and which, or why it
cannot be read. -/
theorem recognize_eq_parse (bytes : List UInt8) : recognize bytes = parse bytes := by
  have hsniff : sniffSize = 8 + (4 + (12 + 8 * maxOrder)) := rfl
  unfold recognize parse
  rw [List.take_take, hsniff, Nat.min_eq_left (by omega), List.drop_take, Nat.add_sub_cancel_left]
  split
  · rfl
  match bytes.drop 8 with
  | [] | [_] | [_, _] | [_, _, _] => rfl
  | version :: kindCode :: order :: reserved :: words =>
    have htake : (version :: kindCode :: order :: reserved :: words).take
        (4 + (12 + 8 * maxOrder)) =
          version :: kindCode :: order :: reserved :: words.take (12 + 8 * maxOrder) := rfl
    rw [htake]
    dsimp only
    -- Each check comes out for the bytes that are looked at as it does for all.
    by_cases hwords : words.length < 12
    · rw [if_pos hwords, if_pos (by rw [List.length_take]; omega)]
    rw [if_neg hwords, if_neg (by rw [List.length_take]; omega)]
    by_cases hversion : version ≠ currentVersion
    · rw [if_pos hversion, if_pos hversion]
    rw [if_neg hversion, if_neg hversion]
    by_cases horder : order = 0 ∨ maxOrder < order.toNat
    · rw [if_pos horder, if_pos horder]
    rw [if_neg horder, if_neg horder]
    -- From here on the order is at most the highest, so that the counts are looked at in full.
    have hcounts : ((words.take (12 + 8 * maxOrder)).drop 12).length < 8 * order.toNat ↔
        (words.drop 12).length < 8 * order.toNat := by
      simp only [List.length_drop, List.length_take]
      omega
    have hread : readCounts order.toNat ((words.take (12 + 8 * maxOrder)).drop 12) =
        readCounts order.toNat (words.drop 12) := by
      rw [List.drop_take]
      exact readCounts_take (by omega) _
    have hchecksum : (words.take (12 + 8 * maxOrder)).take 4 = words.take 4 := by
      rw [List.take_take, Nat.min_eq_left (by omega)]
    have hlength : ((words.take (12 + 8 * maxOrder)).drop 4).take 8 = (words.drop 4).take 8 := by
      rw [List.drop_take, List.take_take, Nat.min_eq_left (by omega)]
    rw [if_congr hcounts rfl rfl, hread, hchecksum, hlength]

end BackoffLM.Header
