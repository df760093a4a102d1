import BackoffLM.Proofs.Files.Checksum
import BackoffLM.Proofs.Files.Container

/-!
# Corrupt payloads are refused

`BinaryFile.ofBytes_of_damaged` says that a file which opens does not open any more when its payload
is damaged within four bytes, wherever they are and whatever they become. The header is the same
after the damage, as it is the same bytes that it is read from (`Header.parse_congr`), and so is the
length of the payload; what is not the same is the checksum (`Crc32.checksum_ne_of_sameOutside`).
-/

namespace BackoffLM

/-- Bytes as many as others, and the same as these outside a window. -/
structure SameOutside (start width : Nat) (bytes bytes' : List UInt8) : Prop where
  length_eq : bytes'.length = bytes.length
  getElem?_eq : ∀ i, i < start ∨ start + width ≤ i → bytes'[i]? = bytes[i]?

namespace SameOutside

variable {start width n : Nat} {bytes bytes' : List UInt8}

/-- What comes before the window is the same. -/
theorem take_eq (h : SameOutside start width bytes bytes') (hn : n ≤ start) :
    bytes'.take n = bytes.take n := by
  refine List.ext_getElem? fun i => ?_
  rw [List.getElem?_take, List.getElem?_take]
  split
  case isTrue hi => exact h.getElem?_eq i (Or.inl (Nat.lt_of_lt_of_le hi hn))
  case isFalse => rfl

/-- What comes after the window is the same. -/
theorem drop_eq (h : SameOutside start width bytes bytes') (hn : start + width ≤ n) :
    bytes'.drop n = bytes.drop n := by
  refine List.ext_getElem? fun i => ?_
  rw [List.getElem?_drop, List.getElem?_drop]
  exact h.getElem?_eq (n + i) (Or.inr (by omega))

/-- Without some bytes before the window they are the same outside it still. -/
theorem drop (h : SameOutside start width bytes bytes') (hn : n ≤ start) :
    SameOutside (start - n) width (bytes.drop n) (bytes'.drop n) where
  length_eq := by rw [List.length_drop, List.length_drop, h.length_eq]
  getElem?_eq i hi := by
    rw [List.getElem?_drop, List.getElem?_drop]
    exact h.getElem?_eq (n + i) (by omega)

end SameOutside

/-- The bytes before a window, in it and after it. -/
theorem window_eq (start width : Nat) (bytes : List UInt8) :
    bytes.take start ++ (bytes.drop start).take width ++ bytes.drop (start + width) = bytes := by
  rw [← List.drop_drop, List.append_assoc, List.take_append_drop, List.take_append_drop]

/-- Damage within four bytes changes the checksum. -/
theorem Crc32.checksum_ne_of_sameOutside {start : Nat} {bytes bytes' : List UInt8}
    (h : SameOutside start 4 bytes bytes') (hne : bytes' ≠ bytes) :
    checksum bytes' ≠ checksum bytes := by
  have hbytes' : bytes.take start ++ (bytes'.drop start).take 4 ++ bytes.drop (start + 4) =
      bytes' := by
    rw [← h.take_eq (Nat.le_refl _), ← h.drop_eq (Nat.le_refl _), window_eq]
  have hlength : ((bytes'.drop start).take 4).length = ((bytes.drop start).take 4).length := by
    simp only [List.length_take, List.length_drop, h.length_eq]
  have hwindow : (bytes'.drop start).take 4 ≠ (bytes.drop start).take 4 := by
    intro hsame
    rw [hsame, window_eq] at hbytes'
    exact hne hbytes'.symm
  have hburst := checksum_ne_of_burst hlength (List.length_take_le _ _) hwindow
    (bytes.take start) (bytes.drop (start + 4))
  rwa [hbytes', window_eq] at hburst

/-- A header is read from as many bytes as it has. -/
theorem Header.parse_congr {bytes bytes' : List UInt8} {h : Header}
    (hparse : parse bytes = .ok (some h)) (hsame : bytes'.take h.size = bytes.take h.size) :
    parse bytes' = .ok (some h) := by
  obtain ⟨hfits, reserved, rest, rfl⟩ := parse_eq_some_iff.mp hparse
  rw [List.take_left' (length_encodeWith h reserved)] at hsame
  rw [← List.take_append_drop h.size bytes', hsame]
  exact parse_encodeWith hfits reserved _

/-- A file that opens is refused for its checksum once its payload is damaged, within four bytes
anywhere in it. -/
theorem BinaryFile.ofBytes_of_damaged {bytes bytes' : List UInt8} {file : BinaryFile} {start : Nat}
    (h : ofBytes bytes = .ok file) (hstart : file.header.size ≤ start)
    (hsame : SameOutside start 4 bytes bytes') (hne : bytes' ≠ bytes) :
    ofBytes bytes' = .error
      (.checksum file.header.checksum (Crc32.checksum (bytes'.drop file.header.size))) := by
  obtain ⟨hparse, hpayload, hlength, hchecksum⟩ := ofBytes_eq_ok_iff.mp h
  have hparse' : Header.parse bytes' = .ok (some file.header) :=
    Header.parse_congr hparse (hsame.take_eq hstart)
  -- The header being the same, it is the payloads that differ.
  have hpayload' : bytes'.drop file.header.size ≠ bytes.drop file.header.size := by
    intro hrest
    refine hne ?_
    rw [← List.take_append_drop file.header.size bytes', hrest, hsame.take_eq hstart,
      List.take_append_drop]
  have hlength' : (bytes'.drop file.header.size).length = file.header.payloadLength.toNat := by
    rw [(hsame.drop hstart).length_eq, hpayload, hlength]
  have hchecksum' : Crc32.checksum (bytes'.drop file.header.size) ≠ file.header.checksum := by
    rw [← hchecksum, ← hpayload]
    exact Crc32.checksum_ne_of_sameOutside (hsame.drop hstart) hpayload'
  rw [ofBytes, hparse', ok_bind]
  dsimp only
  rw [if_neg (not_not_intro hlength'), if_pos hchecksum']

/-- A binary file with a payload of six bytes, whose kind is none that there is. -/
def BinaryFile.sample : BinaryFile where
  header := { Header.sampleHeader with
    checksum := Crc32.checksum [5, 6, 7, 8, 9, 10], payloadLength := 6 }
  payload := [5, 6, 7, 8, 9, 10]

/-- The second and the fifth byte of the payload are damaged. -/
theorem BinaryFile.ofBytes_of_damaged_sample :
    let bytes := sample.header.encode ++ [5, 6, 7, 8, 9, 10]
    let bytes' := sample.header.encode ++ [5, 0x86, 7, 8, 0, 10]
    ofBytes bytes = .ok sample ∧ SameOutside 41 4 bytes bytes' ∧ bytes' ≠ bytes ∧
      ofBytes bytes' = .error (.checksum sample.header.checksum
        (Crc32.checksum [5, 0x86, 7, 8, 0, 10])) := by
  intro bytes bytes'
  have hopen : ofBytes bytes = .ok sample :=
    ofBytes_encode ⟨rfl, by decide, by decide, rfl⟩ rfl rfl
  have hlength : bytes'.length = bytes.length := rfl
  have hwithin : ∀ i < 46, i < 41 ∨ 41 + 4 ≤ i → bytes'[i]? = bytes[i]? := by decide +kernel
  have hsame : SameOutside 41 4 bytes bytes' := by
    refine ⟨hlength, fun i hi => ?_⟩
    by_cases hend : i < 46
    · exact hwithin i hend hi
    · have hbytes : bytes.length = 46 := rfl
      rw [List.getElem?_eq_none (by omega), List.getElem?_eq_none (by omega)]
  have hne : bytes' ≠ bytes := by decide +kernel
  exact ⟨hopen, hsame, hne, ofBytes_of_damaged hopen (by decide) hsame hne⟩

end BackoffLM
