import BackoffLM.Proofs.Arpa.Reading
import BackoffLM.Proofs.Files.Container
import BackoffLM.Proofs.Files.Payload
import BackoffLM.Proofs.Probing.Lookup
import BackoffLM.Proofs.Safety.Runs
import BackoffLM.Proofs.Vocabulary
import BackoffLM.Scorer

/-!
# What a file is loaded as

The first bytes of a file decide how it is loaded, and `Scorer.ofFile_decided` says how, for every
content: text without the magic bytes, which becomes the hash tables that hold it, or a header that
is refused, or one whose kind does not exist, or the loader of the kind that it names, which gives a
model that the header describes. The file is looked at twice, its first bytes to recognize it and
all of it to open it, and both times the same header is read (`Header.recognize_eq_parse`).
-/

namespace BackoffLM

/-! ## Kinds -/

namespace Kind

/-- A code that names a kind is its code. -/
theorem code_of_ofCode? {code : UInt8} {kind : Kind} (h : ofCode? code = some kind) :
    kind.code = code := by
  have hfound := List.find?_some h
  exact beq_iff_eq.mp hfound

/-- The codes from 5 on name no kind. -/
theorem ofCode?_eq_none_iff (code : UInt8) : ofCode? code = none ↔ 4 < code.toNat := by
  rw [ofCode?, List.find?_eq_none]
  simp only [all, List.forall_mem_cons, Kind.code, beq_iff_eq, ← UInt8.toNat_inj,
    List.not_mem_nil, false_implies, implies_true, and_true, UInt8.reduceToNat]
  omega

end Kind

/-! ## Models and headers -/

/-- A header says of a model what the model says of itself. -/
structure Header.Describes (header : Header) (model : LanguageModel) : Prop where
  code_eq : model.kind.code = header.kindCode
  order_eq : model.order = header.order.toNat
  size_eq : header.counts.head?.map UInt64.toNat = some model.vocabulary.size

/-- The loader of each kind reads the model of its search structure. -/
theorem LanguageModel.ofBinary_eq (kind : Kind) (file : BinaryFile) :
    ofBinary kind file = (Model.ofBinary (S := kind.Index) file).map Model.toLanguageModel := by
  cases kind with
  | probing | trie | arrayTrie | quantTrie | quantArrayTrie => rfl

/-- A model that is read from a file is as its header describes it. -/
theorem BinaryFile.describes_of_ofBinary {bytes : List UInt8} {file : BinaryFile}
    (hfile : ofBytes bytes = .ok file) {kind : Kind} {model : LanguageModel}
    (hmodel : LanguageModel.ofBinary kind file = .ok model) : file.header.Describes model := by
  obtain ⟨hparse, -⟩ := ofBytes_eq_ok_iff.mp hfile
  obtain ⟨hfits, -⟩ := Header.parse_eq_some_iff.mp hparse
  rw [LanguageModel.ofBinary_eq] at hmodel
  obtain ⟨m, hm, rfl⟩ := map_eq_ok.mp hmodel
  obtain ⟨hkind, words, rest, -, hagrees, hvocabulary⟩ := Model.ofBinary_eq_ok_iff.mp hm
  refine ⟨hkind.symm, hagrees.order_eq, ?_⟩
  have hsize : m.vocabulary.size = words.size := by
    rw [hvocabulary, Vocabulary.size, Vocabulary.words_ofList]
  -- The first count is the number of words, and there is one, as the order is positive.
  have hpos := hfits.one_le_order
  have hlength := hfits.length_counts
  show _ = some m.vocabulary.size
  rw [hsize, hagrees.size_words]
  cases hcounts : file.header.counts with
  | nil =>
    rw [hcounts, List.length_nil] at hlength
    omega
  | cons count counts => rfl

/-! ## Loading -/

namespace Scorer

variable {files : Files} {path : String} {bytes : List UInt8} {oov : OovScoring}
  (hread : files.read path = .ok bytes)
include hread

/-- Without a header the file is text, and refused if that cannot be read. -/
theorem ofFile_of_badText (hparse : Header.parse bytes = .ok none) {e : LoadError}
    (htext : Arpa.ofBytes bytes none = .error e) :
    ofFile files path oov = .error (.unreadable path e) := by
  simp only [ofFile, Files.load, hread, Except.mapError, ok_bind, Header.recognize_eq_parse, hparse,
    htext]
  rfl

/-- Text that can be read becomes the model of the hash tables that are built of it. -/
theorem ofFile_of_text (hparse : Header.parse bytes = .ok none) {a : Arpa}
    (htext : Arpa.ofBytes bytes none = .ok a) (bits : Nat) :
    ofFile files path oov =
      .ok (ofModel (Model.ofArpa bits a : Model Kind.probing.Index).toLanguageModel oov) := by
  simp only [ofFile, Files.load, hread, Except.mapError, ok_bind, Header.recognize_eq_parse, hparse,
    htext]
  rfl

/-- A header that cannot be read is the reason for refusing the file. -/
theorem ofFile_of_error {e : LoadError} (hparse : Header.parse bytes = .error e) :
    ofFile files path oov = .error (.unreadable path e) := by
  simp only [ofFile, Files.load, hread, Except.mapError, ok_bind, Header.recognize_eq_parse, hparse]
  rfl

/-- A header whose kind does not exist is another. -/
theorem ofFile_of_unknownKind {header : Header} (hparse : Header.parse bytes = .ok (some header))
    (hkind : header.kind? = none) :
    ofFile files path oov = .error (.unknownKind header.kindCode path) := by
  simp only [ofFile, Files.load, hread, Except.mapError, ok_bind, Header.recognize_eq_parse, hparse,
    hkind]

/-- A header whose kind exists leaves the file to the loader of the kind. -/
theorem ofFile_of_kind {header : Header} {kind : Kind}
    (hparse : Header.parse bytes = .ok (some header)) (hkind : header.kind? = some kind) :
    ofFile files path oov = ((BinaryFile.ofBytes bytes >>= LanguageModel.ofBinary kind).map
      fun model => ofModel model oov).mapError (.unreadable path) := by
  simp only [ofFile, Files.load, Files.loadMapped, hread, Except.mapError, ok_bind,
    Header.recognize_eq_parse, hparse, hkind]
  cases BinaryFile.ofBytes bytes with
  | error e => rfl
  | ok file =>
    simp only [ok_bind]
    cases LanguageModel.ofBinary kind file with
    | error | ok => rfl

end Scorer

/-- The loader of a kind gives a model as the header describes it, or says why there is none. -/
theorem BinaryFile.load_cases {bytes : List UInt8} {header : Header}
    (hparse : Header.parse bytes = .ok (some header)) (kind : Kind) :
    (∃ e, (ofBytes bytes >>= LanguageModel.ofBinary kind) = .error e) ∨
      ∃ model, (ofBytes bytes >>= LanguageModel.ofBinary kind) = .ok model ∧
        header.Describes model := by
  cases hload : ofBytes bytes >>= LanguageModel.ofBinary kind with
  | error e => exact .inl ⟨e, rfl⟩
  | ok model =>
    obtain ⟨file, hfile, hmodel⟩ := bind_eq_ok.mp hload
    -- The file that was opened has the header that was recognized.
    obtain ⟨hopened, -⟩ := ofBytes_eq_ok_iff.mp hfile
    rw [hparse, Except.ok.injEq, Option.some.injEq] at hopened
    rw [hopened]
    exact .inr ⟨model, rfl, describes_of_ofBinary hfile hmodel⟩

namespace Scorer

/-- What the content of a file decides of loading it. -/
structure Decided (path : String) (oov : OovScoring) (bytes : List UInt8)
    (result : Except CallError Scorer) : Prop where
  /-- Without the magic bytes it is text, and refused if that cannot be read. -/
  badText : ¬ Header.magic <+: bytes → ∀ e, Arpa.ofBytes bytes none = .error e →
    result = .error (.unreadable path e)
  /-- Other text becomes the probing model of its contents, which has the text's vocabulary and hash
  tables that hold its n-grams. -/
  text : ¬ Header.magic <+: bytes → ∀ a, Arpa.ofBytes bytes none = .ok a → ∀ bits : Nat,
    let m : Model Kind.probing.Index := Model.ofArpa bits a
    result = .ok (ofModel m.toLanguageModel oov) ∧ m.toLanguageModel.kind = .probing ∧
      m.vocabulary = a.vocabulary ∧ Probing.Holds m.index a
  /-- With them there is a header, or a reason why it cannot be read. -/
  marked : Header.magic <+: bytes → Header.parse bytes ≠ .ok none
  badHeader : ∀ e, Header.parse bytes = .error e → result = .error (.unreadable path e)
  unknownKind : ∀ header, Header.parse bytes = .ok (some header) → 4 < header.kindCode.toNat →
    result = .error (.unknownKind header.kindCode path)
  /-- A known kind has a loader, which gives the model that the header describes or a reason why
  there is none. -/
  knownKind : ∀ header, Header.parse bytes = .ok (some header) → header.kindCode.toNat ≤ 4 →
    ∃ kind, kind.code = header.kindCode ∧
      ((∃ e, (BinaryFile.ofBytes bytes >>= LanguageModel.ofBinary kind) = .error e ∧
          result = .error (.unreadable path e)) ∨
        ∃ model, (BinaryFile.ofBytes bytes >>= LanguageModel.ofBinary kind) = .ok model ∧
          result = .ok (ofModel model oov) ∧ header.Describes model)
  /-- The first bytes say as much of the header as all of them. -/
  recognized : Header.recognize bytes = Header.parse bytes
  opened : ∀ file, BinaryFile.ofBytes bytes = .ok file →
    Header.recognize bytes = .ok (some file.header)

/-- The content of a file decides how it is loaded, whatever the content is. -/
theorem ofFile_decided {files : Files} {path : String} {bytes : List UInt8}
    (hread : files.read path = .ok bytes) (oov : OovScoring) :
    Decided path oov bytes (ofFile files path oov) where
  badText hmagic _ htext := ofFile_of_badText hread (Header.parse_eq_none_iff.mpr hmagic) htext
  text hmagic _ htext bits :=
    ⟨ofFile_of_text hread (Header.parse_eq_none_iff.mpr hmagic) htext bits, rfl, rfl,
      Probing.holds_ofArpa (Arpa.ofBytes_wellFormed htext)⟩
  marked hmagic hparse := Header.parse_eq_none_iff.mp hparse hmagic
  badHeader _ hparse := ofFile_of_error hread hparse
  unknownKind _ hparse hcode :=
    ofFile_of_unknownKind hread hparse ((Kind.ofCode?_eq_none_iff _).mpr hcode)
  knownKind header hparse hcode := by
    cases hkind : header.kind? with
    | none => exact absurd ((Kind.ofCode?_eq_none_iff _).mp hkind) (Nat.not_lt.mpr hcode)
    | some kind =>
      refine ⟨kind, Kind.code_of_ofCode? hkind, ?_⟩
      rw [ofFile_of_kind hread hparse hkind]
      rcases BinaryFile.load_cases hparse kind with ⟨e, hload⟩ | ⟨model, hload, hdescribes⟩
      · rw [hload]
        exact .inl ⟨e, rfl, rfl⟩
      · rw [hload]
        exact .inr ⟨model, rfl, rfl, hdescribes⟩
  recognized := Header.recognize_eq_parse bytes
  opened file hfile := by
    rw [Header.recognize_eq_parse]
    exact (BinaryFile.ofBytes_eq_ok_iff.mp hfile).1

/-- A file whose header names a kind that does not exist is refused for that kind, although it ends
with its header. Of two files with a model one is text and becomes hash tables with its n-grams, and
the other is loaded as its header describes it. -/
theorem ofFile_decided_sample :
    let oov : OovScoring := ⟨⟨0xC1200000⟩, .remappedUnknown⟩
    let text : Files := ⟨fun _ => .ok Arpa.sample⟩
    let unknown : Files := ⟨fun _ => .ok Header.sampleHeader.encode⟩
    let known : Files := ⟨fun _ => .ok Model.oddModel.toBytes⟩
    let m : Model Kind.probing.Index := Model.ofArpa 8 Arpa.sampleArpa
    (ofFile text "m" oov = .ok (ofModel m.toLanguageModel oov) ∧
        Probing.Holds m.index Arpa.sampleArpa) ∧
      ofFile unknown "m" oov = .error (.unknownKind 42 "m") ∧
      ∃ model, ofFile known "m" oov = .ok (ofModel model oov) ∧
        Model.oddModel.header.Describes model := by
  intro oov text unknown known m
  have htext : text.read "m" = .ok Arpa.sample := rfl
  have hunknown : unknown.read "m" = .ok Header.sampleHeader.encode := rfl
  have hknown : known.read "m" = .ok Model.oddModel.toBytes := rfl
  have hsample : Header.parse Header.sampleHeader.encode = .ok (some Header.sampleHeader) :=
    toOption_eq_some.mp (by decide)
  obtain ⟨hodd, -⟩ := BinaryFile.ofBytes_eq_ok_iff.mp Model.ofBytes_oddModel
  obtain ⟨hresult, -, -, hholds⟩ :=
    (ofFile_decided htext oov).text (by decide) Arpa.sampleArpa Arpa.ofBytes_sample 8
  refine ⟨⟨hresult, hholds⟩, (ofFile_decided hunknown oov).unknownKind _ hsample (by decide), ?_⟩
  obtain ⟨kind, hkind, hresult⟩ := (ofFile_decided hknown oov).knownKind _ hodd (by decide)
  have hload : (BinaryFile.ofBytes Model.oddModel.toBytes >>= LanguageModel.ofBinary kind) =
      .ok Model.oddModel.toLanguageModel := by
    obtain rfl : kind = .arrayTrie := by
      cases kind with
      | arrayTrie => rfl
      | probing | trie | quantTrie | quantArrayTrie => exact absurd hkind (by decide)
    have hodd := Model.ofBinary_oddModel
    rw [Model.ofBytes_oddModel, ok_bind] at hodd ⊢
    rw [LanguageModel.ofBinary_eq, hodd]
    rfl
  rcases hresult with ⟨e, hrefused, -⟩ | ⟨model, -, hresult⟩
  · exact nomatch hload.symm.trans hrefused
  · exact ⟨model, hresult⟩

end Scorer

end BackoffLM
