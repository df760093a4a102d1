import BackoffLM.Proofs.Arpa.Line
import BackoffLM.Proofs.Arpa.Listing
import BackoffLM.Proofs.Arpa.Reading
import Mathlib.Data.List.Nodup

/-!
# Every well-formed file is read

`ofBytes_of_writes` says that each file which writes a listing is read, and that its contents are
those of the listing, however its fields are spaced and whatever stands around its lines. The proof
follows the reader from one stage to the next along the forms of the lines (`Text.LeadsTo`): a stage
takes the lines of its forms and leaves those after them. In a section every line does to what was
read before it what adding it to the listing does (`Lexicon.add_lexiconOf`, `Ngrams.add_ngramsOf`),
and so the whole section is read as it is listed (`readSection_lines`).
-/

namespace BackoffLM

/-! ## Whole numbers -/

namespace Numeral

/-- A whole number that is read has digits only. -/
theorem isDigit_of_readDigits {limit value n : Nat} {cs : List Char}
    (h : readDigits limit value cs = .ok n) : ∀ c ∈ cs, c.isDigit = true := by
  induction cs generalizing value with
  | nil => exact fun c hc => absurd hc List.not_mem_nil
  | cons c cs ih =>
    rw [readDigits, digit?] at h
    by_cases hdigit : c.isDigit = true
    · rw [if_pos hdigit] at h
      dsimp only at h
      split at h
      · simp at h
      · exact List.forall_mem_cons.mpr ⟨hdigit, ih h⟩
    · rw [if_neg hdigit] at h
      simp at h

/-- It has no equals sign, with a plus sign before it or not. -/
theorem notMem_of_readNat {limit n : Nat} {cs : List Char} (h : readNat limit cs = .ok n) :
    '=' ∉ cs := by
  have hdigits : ∀ {ds : List Char}, readDigits limit 0 ds = .ok n → '=' ∉ ds :=
    fun hds hmem => absurd (isDigit_of_readDigits hds '=' hmem) (by decide)
  unfold readNat at h
  split at h
  · simp at h
  · simp at h
  · intro hmem
    rcases List.mem_cons.mp hmem with heq | hmem
    · exact absurd heq (by decide)
    · exact hdigits h hmem
  · exact hdigits h

end Numeral

namespace Arpa

open Text (Blank IsToken Spaced InOrder LeadsTo Line)

/-! ## One line of a section -/

/-- No numeral opens with a backslash. -/
theorem read?_backslash (cs : List Char) : LogProb.read? ('\\' :: cs) = none := rfl

namespace NgramLine

variable {e : NgramLine} {l : List Char}

/-- A line of a section is not the end of the section. -/
theorem head?_trim_ne (hl : Spaced e.tokens l) : (Text.trim l).head? ≠ some '\\' := by
  have hread := e.prob.read_eq
  rw [hl.head?_trim]
  intro hopen
  obtain ⟨cs, hcs⟩ := List.head?_eq_some_iff.mp hopen
  rw [hcs, read?_backslash] at hread
  simp at hread

/-- What stands after the words is read as it is listed. -/
theorem trailingField (hasBackoff : Bool) :
    TrailingField hasBackoff (e.backoff.map WeightToken.text).toList
      (e.weights hasBackoff).backoff := by
  cases hbackoff : e.backoff with
  | none =>
    have hzero : (e.weights hasBackoff).backoff = .zero := by
      rw [weights, hbackoff]
      cases hasBackoff <;> rfl
    rw [hzero]
    exact .omitted hasBackoff
  | some t =>
    rw [weights, hbackoff]
    cases hasBackoff with
    | false => exact .passedOver t.text
    | true => exact .read t.read_eq

/-- A line is read as it is listed. -/
theorem readNgram_trim {order : Nat} (hasBackoff : Bool) (hlength : e.words.length = order)
    (hl : Spaced e.tokens l) :
    readNgram order hasBackoff (Text.trim l) = .ok (e.words, e.weights hasBackoff) := by
  have hprob : LogProb.read? e.prob.text = some (e.weights hasBackoff).prob := by
    rw [e.prob.read_eq]
    cases hasBackoff <;> rfl
  have hwords : (e.words.map String.toList).map String.ofList = e.words := by
    simp [Function.comp_def]
  rw [readNgram_of_fields hl.trim.fields_eq (by rw [List.length_map, hlength]) hprob
    (e.trailingField hasBackoff), hwords]

end NgramLine

/-! ## The words -/

/-- Before any line there is the unknown word alone. -/
theorem lexiconOf_nil (hasBackoff : Bool) : lexiconOf hasBackoff [] = Lexicon.initial := rfl

/-- The first line of the unknown word sets its weights. -/
theorem lexiconOf_append_unknown {hasBackoff : Bool} {done : List NgramLine} {e : NgramLine}
    (hword : e.word = unknownToken) (hnew : e.word ∉ done.map NgramLine.word) :
    lexiconOf hasBackoff (done ++ [e]) =
      { lexiconOf hasBackoff done with
        unigrams := (lexiconOf hasBackoff done).unigrams.setIfInBounds 0 (e.weights hasBackoff)
        hasUnknown := true } := by
  have hnone : done.find? (·.word = unknownToken) = none := by
    rw [List.find?_eq_none]
    intro f hf hunknown
    rw [decide_eq_true_eq] at hunknown
    rw [hword, ← hunknown] at hnew
    exact hnew (List.mem_map_of_mem hf)
  simp [lexiconOf, wordList, weightList, unknownWeights, hword, hnone, List.find?_append]

/-- The line of another word adds it with its weights. -/
theorem lexiconOf_append_word {hasBackoff : Bool} {done : List NgramLine} {e : NgramLine}
    (hword : e.word ≠ unknownToken) :
    lexiconOf hasBackoff (done ++ [e]) =
      ⟨(lexiconOf hasBackoff done).vocabulary.push e.word,
        (lexiconOf hasBackoff done).unigrams.push (e.weights hasBackoff),
        (lexiconOf hasBackoff done).hasUnknown⟩ := by
  have hlast : [e].find? (·.word = unknownToken) = none := by simp [hword]
  simp [lexiconOf, wordList, weightList, unknownWeights, hword, hlast, List.find?_append,
    Vocabulary.ofList, List.foldl_append]

/-- A line of a word that was not there is added as it is listed. -/
theorem Lexicon.add_lexiconOf {hasBackoff : Bool} {done : List NgramLine} {e : NgramLine}
    {l : List Char} (hlength : e.words.length = 1) (hnew : e.word ∉ done.map NgramLine.word)
    (hl : Spaced e.tokens l) :
    Lexicon.add hasBackoff (lexiconOf hasBackoff done) (Text.trim l) =
      .ok (lexiconOf hasBackoff (done ++ [e])) := by
  have hread := NgramLine.readNgram_trim hasBackoff hlength hl
  by_cases hword : e.word = unknownToken
  · rw [Lexicon.add, hread, ok_bind, lexiconOf_append_unknown hword hnew]
    exact if_pos hword
  · have hone : e.words = [e.word] := by
      obtain ⟨w, hw⟩ := List.length_eq_one_iff.mp hlength
      rw [NgramLine.word, hw]
      rfl
    have hfresh : (lexiconOf hasBackoff done).vocabulary.contains e.word = false := by
      rw [Bool.eq_false_iff]
      intro hold
      rcases List.mem_cons.mp ((Vocabulary.contains_ofList _ _).mp hold) with hold | hold
      · exact hword hold
      · exact hnew (List.mem_filter.mp hold).1
    rw [hone] at hread
    rw [Lexicon.add_line hread hword hfresh, lexiconOf_append_word hword]

/-! ## The longer n-grams -/

/-- The n-grams of some lines over numbered words, and their words. -/
def ngramsOf (words : List String) (hasBackoff : Bool) (s : List NgramLine) : Ngrams where
  entries := (s.map (entryOf words hasBackoff)).toArray
  seen := s.foldl (fun seen e => seen.insert (e.words.map words.idxOf)) ∅

/-- The words of the n-grams are remembered. -/
theorem contains_ngramsOf (words : List String) (hasBackoff : Bool) (s : List NgramLine)
    (ids : List WordId) :
    (ngramsOf words hasBackoff s).seen.contains ids = true ↔
      ∃ e ∈ s, e.words.map words.idxOf = ids := by
  have hfold : ∀ seen : Std.HashSet (List WordId),
      (s.foldl (fun seen e => seen.insert (e.words.map words.idxOf)) seen).contains ids = true ↔
        seen.contains ids = true ∨ ∃ e ∈ s, e.words.map words.idxOf = ids := by
    induction s with
    | nil => exact fun seen => by simp
    | cons e s ih =>
      intro seen
      rw [List.foldl_cons, ih, Std.HashSet.contains_insert, Bool.or_eq_true, beq_iff_eq]
      simp only [List.exists_mem_cons_iff, or_assoc, or_left_comm]
  rw [ngramsOf, hfold ∅]
  simp

/-- Words of a list are those at their places. -/
theorem map_word?_idxOf {words ngram : List String} (h : ∀ w ∈ ngram, w ∈ words) :
    (ngram.map words.idxOf).map (Vocabulary.ofList words).word? = ngram.map some := by
  rw [List.map_map]
  refine List.map_congr_left fun w hw => ?_
  show (Vocabulary.ofList words).words[words.idxOf w]? = some w
  rw [Vocabulary.words_ofList, List.getElem?_toArray]
  exact List.getElem?_idxOf (h w hw)

/-- A line of an n-gram that was not there is added as it is listed. -/
theorem Ngrams.add_ngramsOf {words : List String} {order : Nat} {hasBackoff : Bool}
    {done : List NgramLine} {e : NgramLine} {l : List Char} (hwords : words.Nodup)
    (hlength : e.words.length = order) (hknown : ∀ f ∈ done ++ [e], ∀ w ∈ f.words, w ∈ words)
    (hnew : e.words ∉ done.map NgramLine.words) (hl : Spaced e.tokens l) :
    Ngrams.add (.ofList words) order hasBackoff (ngramsOf words hasBackoff done) (Text.trim l) =
      .ok (ngramsOf words hasBackoff (done ++ [e])) := by
  have hids := map_word?_idxOf (hknown e (List.mem_append_right done List.mem_cons_self))
  have hfresh : (ngramsOf words hasBackoff done).seen.contains (e.words.map words.idxOf) =
      false := by
    rw [Bool.eq_false_iff]
    intro hold
    obtain ⟨f, hf, hsame⟩ := (contains_ngramsOf words hasBackoff done _).mp hold
    -- N-grams of the same numbers are of the same words.
    have hfids := map_word?_idxOf (hknown f (List.mem_append_left [e] hf))
    rw [hsame, hids] at hfids
    have heq : e.words = f.words := List.map_injective_iff.mpr (fun _ _ => Option.some.inj) hfids
    exact hnew (heq ▸ List.mem_map_of_mem hf)
  rw [Ngrams.add_line (NgramLine.readNgram_trim hasBackoff hlength hl)
    (lookUp_of_words (Vocabulary.numbered_ofList hwords) hids) hfresh]
  simp [ngramsOf, entryOf, List.foldl_append]

/-! ## A section -/

/-- A section whose lines are added one after another is read as it is listed. -/
theorem readSection_lines {σ : Type} {add : σ → List Char → Except ArpaFault σ}
    (result : List NgramLine → σ) {s : List NgramLine}
    (hadd : ∀ done e later, s = done ++ e :: later → ∀ l, Spaced e.tokens l →
      add (result done) (Text.trim l) = .ok (result (done ++ [e])))
    (last : Nat) {rest lines : List Line}
    (h : LeadsTo rest (s.map fun e => Spaced e.tokens) lines) :
    readSection add last (result []) 0 lines = readSection add last (result s) s.length rest := by
  -- After some lines the result is that of these lines.
  have hfrom : ∀ later done lines, s = done ++ later →
      LeadsTo rest (later.map fun e => Spaced e.tokens) lines →
      readSection add last (result done) done.length lines =
        readSection add last (result s) s.length rest := by
    intro later
    induction later with
    | nil =>
      intro done lines hs h
      cases h with
      | done => rw [hs, List.append_nil]
    | cons e later ih =>
      intro done lines hs h
      cases h with
      | line hform hlines =>
        have hsnoc : s = done ++ [e] ++ later := by
          rw [hs, List.append_assoc, List.singleton_append]
        rw [readSection_line (NgramLine.head?_trim_ne hform) (hadd done e later hs _ hform),
          ← ih (done ++ [e]) _ hsnoc hlines, List.length_append, List.length_singleton]
  exact hfrom s [] lines rfl h

/-- A section ends where the next one begins, or at the end marker. -/
theorem exists_opening {n : Nat} {sections : List (List NgramLine)} {rest lines : List Line}
    (h : LeadsTo rest (sectionForms n sections) lines) :
    ∃ number text more, lines = ⟨number, some text⟩ :: more ∧ text.head? = some '\\' := by
  cases sections with
  | nil =>
    cases h with
    | @line _ _ _ number more hform _ =>
      rw [hform.trim_eq]
      exact ⟨number, endMarker, more, rfl, rfl⟩
  | cons s sections =>
    cases h with
    | @line _ _ _ number more hform _ =>
      rw [hform.trim_eq]
      exact ⟨number, header n, more, rfl, rfl⟩

/-- No header is the end marker. -/
theorem header_ne_endMarker (n : Nat) : header n ≠ endMarker := by
  intro h
  have hlast : (header n).getLast? = some ':' := by
    rw [header, List.getLast?_append]
    rfl
  rw [h] at hlast
  exact absurd hlast (by decide)

/-! ## The stages -/

/-- The lines of the preamble are skipped. -/
theorem skipPreamble_preamble (last : Nat) {preamble : List (List Char)}
    (h : ∀ l ∈ preamble, ¬ Spaced [dataMarker] l) (i : Nat) (raw : List (List UInt8)) :
    skipPreamble last (Text.numberedFrom i (preamble.map Text.Utf8.encode ++ raw)) =
      skipPreamble last (Text.numberedFrom (i + preamble.length) raw) := by
  induction preamble generalizing i with
  | nil => rfl
  | cons l preamble ih =>
    obtain ⟨hl, hpreamble⟩ := List.forall_mem_cons.mp h
    have hmore := ih hpreamble (i + 1)
    rw [Nat.add_assoc, Nat.add_comm 1] at hmore
    rw [List.map_cons, List.cons_append, List.length_cons]
    by_cases hblank : Blank l
    · rw [Text.numberedFrom_blank hblank, hmore]
    · have hmarker : Text.trim l ≠ dataMarker := by
        intro htrim
        apply hl
        rw [Text.spaced_iff, ← Text.fields_trim, htrim]
        decide
      rw [Text.numberedFrom_line hblank, skipPreamble, ← hmore]
      exact if_neg hmarker

/-- The data marker ends the preamble. -/
theorem skipPreamble_marker (last number : Nat) (lines : List Line) :
    skipPreamble last (⟨number, some dataMarker⟩ :: lines) = .ok lines := by
  have htext : lineText ⟨number, some dataMarker⟩ = .ok dataMarker := rfl
  rw [skipPreamble, htext, ok_bind, if_pos rfl]

/-- Blanks before a count line and after it are trimmed off. -/
theorem trim_countLine {before : List Char} (hbefore : Blank before)
    (orderField countField : List Char) :
    Text.trim (before ++ ("ngram ".toList ++ (orderField ++ '=' :: countField))) =
      "ngram ".toList ++ (orderField ++ '=' :: Text.trimEnd countField) := by
  have hword : IsToken "ngram".toList := by decide
  calc Text.trim (before ++ ("ngram ".toList ++ (orderField ++ '=' :: countField)))
      = Text.trim ("ngram".toList ++ (' ' :: orderField ++ '=' :: countField)) :=
        Text.trim_blank_append hbefore _
    _ = "ngram".toList ++ Text.trimEnd (' ' :: orderField ++ '=' :: countField) :=
        Text.trim_token_append hword _
    _ = "ngram".toList ++ (' ' :: orderField ++ '=' :: Text.trimEnd countField) := by
        rw [Text.trimEnd_append_cons _ (by decide)]

/-- The order and the count of a count line are read on either side of the equals sign. -/
theorem readCount_of_fields {order count : Nat}
    {orderField orderText countField countText : List Char}
    (horderField : Spaced [orderText] orderField) (hcountField : Spaced [countText] countField)
    (horder : Numeral.readNat Numeral.maxWord64 orderText = .ok order)
    (hcount : Numeral.readNat Numeral.maxWord64 countText = .ok count) (text : List Char) :
    readCount text (orderField ++ '=' :: countField) = .ok (order, count) := by
  -- The first equals sign is the one after the order.
  have hsign : ∀ c ∈ orderField, decide (c ≠ '=') = true := by
    intro c hc
    rw [decide_eq_true_eq]
    rintro rfl
    rcases horderField.mem hc with hblank | hmem
    · exact absurd hblank (by decide)
    · exact Numeral.notMem_of_readNat horder hmem
  have htake : (orderField ++ '=' :: countField).takeWhile (· ≠ '=') = orderField := by
    rw [List.takeWhile_append_of_pos hsign]
    simp
  have hdrop : (orderField ++ '=' :: countField).dropWhile (· ≠ '=') = '=' :: countField := by
    rw [List.dropWhile_append_of_pos hsign]
    simp
  unfold readCount
  dsimp only
  rw [htake, hdrop]
  dsimp only
  rw [horderField.trim_eq, hcountField.trim_eq, horder, hcount]
  rfl

/-- A count line says what it declares. -/
theorem CountLine.exists_body {order count : Nat} {l : List Char} (h : CountLine order count l) :
    ∃ body, "ngram ".toList.isPrefixOf? (Text.trim l) = some body ∧
      readCount (Text.trim l) body = .ok (order, count) := by
  cases h with
  | @mk before orderField _ countField _ hbefore horderField hcountField horder hcount =>
    rw [trim_countLine hbefore]
    exact ⟨_, List.isPrefixOf?_eq_some_iff_append_eq.mpr rfl,
      readCount_of_fields horderField hcountField.trimEnd horder hcount _⟩

/-- The counts are read as they are declared. -/
theorem readCounts_countForms (last : Nat) (declared : List Nat) {counts : List Nat}
    {rest lines : List Line}
    (h : LeadsTo rest (countForms (declared.length + 1) counts) lines) :
    readCounts last declared lines = readCounts last (declared ++ counts) rest := by
  induction counts generalizing declared lines with
  | nil =>
    cases h with
    | done => rw [List.append_nil]
  | cons count counts ih =>
    cases h with
    | @line _ _ l number lines hform hlines =>
      obtain ⟨body, hbody, hread⟩ := CountLine.exists_body hform
      have htext : lineText ⟨number, some (Text.trim l)⟩ = .ok (Text.trim l) := rfl
      have hdeclared : (declared ++ [count]).length = declared.length + 1 := by
        rw [List.length_append, List.length_singleton]
      rw [← hdeclared] at hlines
      rw [readCounts, htext, ok_bind, hbody]
      dsimp only
      rw [hread]
      change (if declared.length + 1 = declared.length + 1 then
        readCounts last (declared ++ [count]) lines else _) = _
      rw [if_pos rfl, ih _ hlines, List.append_assoc, List.singleton_append]

/-- After the counts comes the header of the unigrams. -/
theorem readCounts_header (last : Nat) {declared : List Nat} (hne : declared ≠ []) {number : Nat}
    (lines : List Line) :
    readCounts last declared (⟨number, some (header 1)⟩ :: lines) = .ok (declared, lines) := by
  have htext : lineText ⟨number, some (header 1)⟩ = .ok (header 1) := rfl
  have hprefix : "ngram ".toList.isPrefixOf? (header 1) = none := by decide
  have hsome : ¬ declared.isEmpty = true := by simpa using hne
  rw [readCounts, htext, ok_bind, hprefix]
  dsimp only
  rw [if_pos rfl, if_neg hsome]

variable (d : Listing)

/-- Words of the unigrams are distinct. -/
theorem Listing.nodup_words : (d.unigrams.map NgramLine.word).Nodup := by
  have hdistinct := d.distinct d.unigrams List.mem_cons_self
  have hone : d.unigrams.map NgramLine.words =
      (d.unigrams.map NgramLine.word).map fun w => [w] := by
    rw [List.map_map]
    refine List.map_congr_left fun e he => ?_
    obtain ⟨w, hw⟩ := List.length_eq_one_iff.mp (d.length_words 0 d.unigrams rfl e he)
    simp [NgramLine.word, hw]
  rw [hone] at hdistinct
  exact List.Nodup.of_map _ hdistinct

/-- The words are given their numbers once. -/
theorem Listing.nodup_wordList : (wordList d.unigrams).Nodup := by
  rw [wordList, List.nodup_cons]
  constructor
  · intro hmem
    simpa using (List.mem_filter.mp hmem).2
  · exact d.nodup_words.filter _

/-- The number of every word is its place in the list. -/
theorem Listing.idOf_contents {id : Nat} {w : String} (h : (wordList d.unigrams)[id]? = some w) :
    d.contents.vocabulary.idOf w = id := by
  have hword : (Vocabulary.ofList (wordList d.unigrams)).words[id]? = some w := by
    rw [Vocabulary.words_ofList, List.getElem?_toArray, h]
  have hid := (Vocabulary.numbered_ofList d.nodup_wordList w id).mpr hword
  rw [Vocabulary.idOf, Std.HashMap.getD_eq_getD_getElem?, Listing.contents, hid, Option.getD_some]

/-- There is a section for each order above the first. -/
theorem Listing.length_entriesFrom (n : Nat) (sections : List (List NgramLine)) :
    (d.entriesFrom n sections).length = sections.length := by
  induction sections generalizing n with
  | nil => rfl
  | cons s sections ih => rw [entriesFrom, List.length_cons, List.length_cons, ih]

/-- The contents are of the order of the listing. -/
theorem Listing.order_contents : d.contents.order = d.order := by
  have hmax : d.higher.length + 1 ≤ 6 := d.order_le
  show ((d.entriesFrom 2 d.higher).length + 1) % 256 = d.higher.length + 1
  rw [length_entriesFrom]
  omega

/-- The words of longer n-grams are numbered. -/
theorem Listing.mem_wordList {s : List NgramLine} (hs : s ∈ d.higher) {e : NgramLine} (he : e ∈ s)
    {w : String} (hw : w ∈ e.words) : w ∈ wordList d.unigrams := by
  rw [wordList, List.mem_cons]
  by_cases hunknown : w = unknownToken
  · exact .inl hunknown
  · have hmem := (d.known s hs e he w hw).resolve_left hunknown
    exact .inr (List.mem_filter.mpr ⟨hmem, by simpa using hunknown⟩)

/-- What is listed once was not listed before. -/
theorem notMem_of_nodup_map {α : Type} {f : NgramLine → α} {s done later : List NgramLine}
    {e : NgramLine} (h : (s.map f).Nodup) (hs : s = done ++ e :: later) : f e ∉ done.map f := by
  rw [hs, List.map_append, List.map_cons] at h
  intro hold
  exact (List.nodup_append.mp h).2.2 _ hold _ List.mem_cons_self rfl

/-- The unigrams are read as they are listed. -/
theorem readSection_unigrams (last : Nat) (hasBackoff : Bool) {rest lines : List Line}
    (h : LeadsTo rest (d.unigrams.map fun e => Spaced e.tokens) lines) :
    readSection (Lexicon.add hasBackoff) last Lexicon.initial 0 lines =
      readSection (Lexicon.add hasBackoff) last (lexiconOf hasBackoff d.unigrams)
        d.unigrams.length rest := by
  rw [← lexiconOf_nil hasBackoff]
  refine readSection_lines (lexiconOf hasBackoff) (fun done e later hs l hl => ?_) last h
  have hmem : e ∈ d.unigrams := by
    rw [hs]
    exact List.mem_append_right done List.mem_cons_self
  have hnew : e.word ∉ done.map NgramLine.word := notMem_of_nodup_map d.nodup_words hs
  exact Lexicon.add_lexiconOf (d.length_words 0 d.unigrams rfl e hmem) hnew hl

/-- The n-grams of a higher order are read as they are listed. -/
theorem readSection_ngrams (last : Nat) (hasBackoff : Bool) {k : Nat} {s : List NgramLine}
    (hs : d.higher[k]? = some s) {rest lines : List Line}
    (h : LeadsTo rest (s.map fun e => Spaced e.tokens) lines) :
    readSection (Ngrams.add (.ofList (wordList d.unigrams)) (k + 2) hasBackoff) last ⟨#[], ∅⟩ 0
        lines =
      readSection (Ngrams.add (.ofList (wordList d.unigrams)) (k + 2) hasBackoff) last
        (ngramsOf (wordList d.unigrams) hasBackoff s) s.length rest := by
  have hmem : s ∈ d.higher := List.mem_of_getElem? hs
  refine readSection_lines (ngramsOf (wordList d.unigrams) hasBackoff)
    (fun done e later hdone l hl => ?_) last h
  have hsub : ∀ f ∈ done ++ [e], f ∈ s := by
    intro f hf
    rw [hdone, List.append_cons]
    exact List.mem_append_left later hf
  have he : e ∈ s := hsub e (List.mem_append_right done List.mem_cons_self)
  have hnew : e.words ∉ done.map NgramLine.words :=
    notMem_of_nodup_map (d.distinct s (List.mem_cons_of_mem _ hmem)) hdone
  have hlength : e.words.length = k + 2 := d.length_words (k + 1) s hs e he
  exact Ngrams.add_ngramsOf d.nodup_wordList hlength
    (fun f hf w hw => d.mem_wordList hmem (hsub f hf) hw) hnew hl

/-- The sections of the higher orders are read as they are listed. -/
theorem readHigher_sectionForms (last k : Nat) {number : Nat} {text : List Char}
    {rest lines : List Line}
    (h : LeadsTo rest (sectionForms (k + 2) (d.higher.drop k)) (⟨number, some text⟩ :: lines)) :
    readHigher (.ofList (wordList d.unigrams)) d.order last (k + 2)
        ((d.higher.drop k).map List.length) (number, text) lines =
      .ok (d.entriesFrom (k + 2) (d.higher.drop k)) := by
  generalize hsections : d.higher.drop k = sections at h
  induction sections generalizing k number text lines with
  | nil =>
    cases h with
    | line hform _ =>
      rw [hform.trim_eq]
      exact if_pos rfl
  | cons s sections ih =>
    have hs : d.higher[k]? = some s := by
      have hfirst := congrArg (fun xs => xs[0]?) hsections
      simpa using hfirst
    have hrest : d.higher.drop (k + 1) = sections := by
      rw [← List.tail_drop, hsections, List.tail_cons]
    have hkeep : k + 2 ≤ d.order := by
      have hlt := (List.getElem?_eq_some_iff.mp hs).1
      show k + 2 ≤ d.higher.length + 1
      omega
    cases h with
    | line hform hlines =>
      obtain ⟨middle, hsection, hmiddle⟩ := hlines.exists_middle
      obtain ⟨next, nextText, more, rfl, hopen⟩ := exists_opening hmiddle
      have hread := (readSection_ngrams d last (k + 2 < d.order) hs hsection).trans
        (readSection_end hopen)
      rw [hform.trim_eq]
      exact readHigher_section (header_ne_endMarker (k + 2)) rfl hkeep hread
        (ih (k + 1) hrest hmiddle)

/-! ## The whole file -/

/-- After the preamble of a file the reader comes upon the lines of the listing. -/
theorem Layout.Writes.exists_leadsTo {t : Layout} {d : Listing} (h : t.Writes d) :
    ∃ lines rest, LeadsTo rest d.forms lines ∧ ∀ last,
      skipPreamble last (Text.numbered (Text.rawLines t.bytes)) = skipPreamble last lines := by
  have hlines : ∀ l ∈ t.preamble ++ t.body, '\n' ∉ l :=
    fun l hl => h.oneLine l (List.mem_append_left _ hl)
  have hclosing : '\n' ∉ t.closing :=
    h.oneLine t.closing (List.mem_append_right _ List.mem_cons_self)
  have hne : Text.Utf8.encode t.closing ≠ [] := by
    intro hnil
    have hdecode := Text.Utf8.decode_encode t.closing
    rw [hnil] at hdecode
    apply h.closing
    rw [← Except.ok.inj hdecode]
    exact fun c hc => absurd hc List.not_mem_nil
  obtain ⟨more, hmore⟩ :=
    Text.exists_rawLines_append (Text.lf_not_mem_encode hclosing) hne h.after
  have hraw : Text.rawLines t.bytes = t.preamble.map Text.Utf8.encode ++
      ((t.body ++ [t.closing]).map Text.Utf8.encode ++ more) := by
    rw [Layout.bytes, Text.rawLines_flatMap hlines, hmore]
    simp
  obtain ⟨rest, hrest⟩ := h.lines.exists_leadsTo (0 + t.preamble.length) more
  refine ⟨_, rest, hrest, fun last => ?_⟩
  rw [hraw, Text.numbered_eq, skipPreamble_preamble last h.preamble]

/-- Every file that writes a listing is read, and its contents are those of the listing: of its
order, and with the words numbered by their places, from 0 for the unknown word on. -/
theorem ofBytes_of_writes {t : Layout} {d : Listing} (h : t.Writes d) :
    ofBytes t.bytes none = .ok d.contents ∧ d.contents.order = d.order ∧
      ∀ (id : Nat) (w : String), (wordList d.unigrams)[id]? = some w →
        d.contents.vocabulary.idOf w = id := by
  refine ⟨?_, d.order_contents, fun id w => d.idOf_contents⟩
  obtain ⟨lines, rest, hlines, hpreamble⟩ := h.exists_leadsTo
  generalize hlast : (Text.rawLines t.bytes).length = last
  -- The forms are those of the data marker, the counts, the unigrams and the higher orders.
  cases hlines with
  | line hdata hlines =>
    obtain ⟨middle, hcounts, hsections⟩ := hlines.exists_middle
    cases hsections with
    | line hheader hsections =>
      obtain ⟨opening, hunigrams, hhigher⟩ := hsections.exists_middle
      obtain ⟨number, text, more, rfl, hopen⟩ := exists_opening hhigher
      rw [hdata.trim_eq] at hpreamble
      rw [hheader.trim_eq] at hcounts
      have hafter := (hpreamble last).trans (skipPreamble_marker last _ _)
      have hdeclared := (readCounts_countForms last [] hcounts).trans
        (readCounts_header last (List.cons_ne_nil _ _) _)
      have hread := (readSection_unigrams d last (1 < d.order) hunigrams).trans
        (readSection_end hopen)
      have hrest := readHigher_sectionForms d last 0 hhigher
      have hkeep : keptOrder (d.unigrams.length :: d.higher.map List.length).length none =
          d.order := by
        rw [List.length_cons, List.length_map]
        rfl
      have hmax : ¬ maxOrder < d.order := Nat.not_lt.mpr d.order_le
      rw [ofBytes]
      dsimp only
      rw [hlast, hafter, ok_bind, hdeclared, ok_bind]
      dsimp only
      rw [hkeep, if_neg hmax, hread, ok_bind]
      exact bind_eq_ok.mpr ⟨(), if_pos rfl, bind_eq_ok.mpr ⟨_, hrest, rfl⟩⟩

/-! ## A loosely written file -/

/-- The numeral `-0.5`. -/
def half : WeightToken := ⟨"-0.5".toList, ⟨0xBF000000⟩, by decide, rfl⟩

/-- The numeral `-1`. -/
def one : WeightToken := ⟨"-1".toList, ⟨0xBF800000⟩, by decide, rfl⟩

/-- A listing of two words, between which the unknown word has weights of its own. -/
def looseListing : Listing where
  unigrams := [⟨one, ["a"], some half, by decide⟩, ⟨half, ["<unk>"], none, by decide⟩,
    ⟨one, ["b"], none, by decide⟩]
  higher := [[⟨half, ["a", "b"], some one, by decide⟩, ⟨one, ["<unk>", "a"], none, by decide⟩]]
  order_le := by decide
  length_words := by
    intro k s hs
    match k, hs with
    | 0, hs => rw [← Option.some.inj hs]; decide
    | 1, hs => rw [← Option.some.inj hs]; decide
  distinct := by decide
  known := by decide

/-- It means numbers for the words, the weights of each, and no backoff for the longer n-grams. -/
example : looseListing.contents.vocabulary.words = #["<unk>", "a", "b"] ∧
    looseListing.contents.unigrams =
      #[⟨half.value, .zero⟩, ⟨one.value, half.value⟩, ⟨one.value, .zero⟩] ∧
    looseListing.contents.ngrams =
      [#[⟨[1, 2], half.value, .zero⟩, ⟨[0, 1], one.value, .zero⟩]] := by decide

/-- A file of it with lines before the data marker, blank lines, fields spaced at will, a backoff at
the highest order, and bytes after the end marker that are no text. -/
def looseLayout : Layout where
  preamble := ["by hand".toList, [], "ngram 7=9".toList]
  body := ["\\data\\ ".toList, "ngram 1=3".toList, "\tngram  2 = +02".toList, [],
    "\\1-grams:".toList, "-1 a\t-0.5".toList, "-0.5 <unk>".toList, "  ".toList,
    "  -1  b ".toList, "\\2-grams:".toList, "-0.5 a b -1".toList, "-1\t<unk> a".toList]
  closing := " \\end\\".toList
  after := [0x0A, 0xFF, 0x0A]

/-- Its lines that are not blank have the forms of the listing. -/
theorem inOrder_loose :
    InOrder looseListing.forms (looseLayout.body ++ [looseLayout.closing]) := by
  have hfirst : CountLine 1 3 "ngram 1=3".toList := by
    have hbefore : Blank [] := by decide
    have horder : Spaced ["1".toList] "1".toList := by decide
    have hcount : Spaced ["3".toList] "3".toList := by decide
    exact .mk hbefore horder hcount rfl rfl
  have hsecond : CountLine 2 2 "\tngram  2 = +02".toList := by
    have hbefore : Blank "\t".toList := by decide
    have horder : Spaced ["2".toList] " 2 ".toList := by decide
    have hcount : Spaced ["+02".toList] " +02".toList := by decide
    exact .mk hbefore horder hcount rfl rfl
  refine .line (by decide) (by decide : Spaced [dataMarker] _) ?_
  refine .line (by decide) hfirst (.line (by decide) hsecond (.blank (by decide) ?_))
  refine .line (by decide) (by decide : Spaced [header 1] _) ?_
  refine .line (by decide) (by decide : Spaced _ _) (.line (by decide) (by decide : Spaced _ _) ?_)
  refine .blank (by decide) (.line (by decide) (by decide : Spaced _ _) ?_)
  refine .line (by decide) (by decide : Spaced [header 2] _) ?_
  refine .line (by decide) (by decide : Spaced _ _) (.line (by decide) (by decide : Spaced _ _) ?_)
  exact .line (by decide) (by decide : Spaced [endMarker] _) .nil

/-- The file is read. -/
theorem ofBytes_of_writes_loose : looseLayout.Writes looseListing ∧
    ofBytes looseLayout.bytes none = .ok looseListing.contents ∧
    looseListing.contents.order = 2 ∧
    ∀ (id : Nat) (w : String), (wordList looseListing.unigrams)[id]? = some w →
      looseListing.contents.vocabulary.idOf w = id := by
  have hwrites : looseLayout.Writes looseListing :=
    ⟨by decide, inOrder_loose, by decide, by decide, .inr rfl⟩
  exact ⟨hwrites, ofBytes_of_writes hwrites⟩

end Arpa

end BackoffLM
