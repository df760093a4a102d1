import BackoffLM.Proofs.Files.Header

/-!
# Containers are opened as they were written

`BinaryFile.ofBytes_eq_ok_iff` says which files are opened: those that have a header and then a
payload of the length and the checksum that the header says.
-/

namespace BackoffLM.BinaryFile

/-- A file is opened exactly when it has a header, and after it a payload of the length and the
checksum that the header says. -/
theorem ofBytes_eq_ok_iff {bytes : List UInt8} {file : BinaryFile} :
    ofBytes bytes = .ok file ↔
      Header.parse bytes = .ok (some file.header) ∧
        bytes.drop file.header.size = file.payload ∧
        file.payload.length = file.header.payloadLength.toNat ∧
        Crc32.checksum file.payload = file.header.checksum := by
  constructor
  · intro h
    obtain ⟨header?, hparse, h⟩ := bind_eq_ok.mp h
    cases header? with
    | none => exact nomatch h
    | some header =>
      obtain ⟨hlength, h⟩ := ite_error_eq_ok.mp h
      obtain ⟨hchecksum, h⟩ := ite_error_eq_ok.mp h
      rw [← Except.ok.inj h]
      exact ⟨hparse, rfl, not_not.mp hlength, not_not.mp hchecksum⟩
  · rintro ⟨hparse, hpayload, hlength, hchecksum⟩
    rw [ofBytes, hparse, ok_bind]
    dsimp only
    rw [hpayload, if_neg (not_not_intro hlength), if_neg (not_not_intro hchecksum)]

/-- A file whose header says the length and the checksum of its payload is opened. -/
theorem ofBytes_encode {h : Header} {payload : List UInt8} (hfits : h.Fits)
    (hlength : payload.length = h.payloadLength.toNat)
    (hchecksum : Crc32.checksum payload = h.checksum) :
    ofBytes (h.encode ++ payload) = .ok ⟨h, payload⟩ :=
  ofBytes_eq_ok_iff.mpr ⟨Header.parse_encodeWith hfits 0 payload,
    List.drop_left' h.length_encode, hlength, hchecksum⟩

end BackoffLM.BinaryFile
