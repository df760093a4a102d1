import BackoffLM.Proofs.Arpa.Closure

/-!
# Reading one line after another

The equations of the section readers for a line that is accepted, and of their end. Each leaves the
hash tables of the readers as they are built, so that what is in them is decided by the laws of
insertion. With them the contents of a small file of order 4 are worked out (`ofBytes_sample`).
-/

namespace BackoffLM.Arpa

open Text (Line)

/-- A line that is accepted is added to the section. -/
theorem readSection_line {σ : Type} {add : σ → List Char → Except ArpaFault σ} {last : Nat}
    {result next : σ} {seen number : Nat} {text : List Char} {lines : List Line}
    (hopen : text.head? ≠ some '\\') (hadd : add result text = .ok next) :
    readSection add last result seen (⟨number, some text⟩ :: lines) =
      readSection add last next (seen + 1) lines := by
  have htext : lineText ⟨number, some text⟩ = .ok text := rfl
  rw [readSection, htext, ok_bind, if_neg hopen, hadd]
  rfl

/-- A line that opens with a backslash ends the section. -/
theorem readSection_end {σ : Type} {add : σ → List Char → Except ArpaFault σ} {last : Nat}
    {result : σ} {seen number : Nat} {text : List Char} {lines : List Line}
    (hopen : text.head? = some '\\') :
    readSection add last result seen (⟨number, some text⟩ :: lines) =
      .ok ⟨result, seen, (number, text), lines⟩ := by
  have htext : lineText ⟨number, some text⟩ = .ok text := rfl
  rw [readSection, htext, ok_bind, if_pos hopen]

/-- A line of a new word numbers the word. -/
theorem Lexicon.add_line {withBackoff : Bool} {lexicon : Lexicon} {text : List Char}
    {word : String} {weights : Weights}
    (hread : readNgram 1 withBackoff text = .ok ([word], weights)) (hword : word ≠ unknownToken)
    (hnew : lexicon.vocabulary.contains word = false) :
    Lexicon.add withBackoff lexicon text =
      .ok ⟨lexicon.vocabulary.push word, lexicon.unigrams.push weights, lexicon.hasUnknown⟩ := by
  have hold : ¬ lexicon.vocabulary.contains word = true := by
    rw [hnew]
    exact Bool.false_ne_true
  rw [Lexicon.add, hread, ok_bind]
  exact (if_neg hword).trans (if_neg hold)

/-- A line of the unknown word sets its weights. -/
theorem Lexicon.add_unknown {withBackoff : Bool} {lexicon : Lexicon} {text : List Char}
    {weights : Weights} (hread : readNgram 1 withBackoff text = .ok ([unknownToken], weights)) :
    Lexicon.add withBackoff lexicon text =
      .ok { lexicon with
        unigrams := lexicon.unigrams.setIfInBounds 0 weights, hasUnknown := true } := by
  rw [Lexicon.add, hread, ok_bind]
  exact if_pos rfl

/-- A line of a new n-gram becomes an entry. -/
theorem Ngrams.add_line {v : Vocabulary} {order : Nat} {withBackoff : Bool} {ngrams : Ngrams}
    {text : List Char} {words : List String} {weights : Weights} {ids : List WordId}
    (hread : readNgram order withBackoff text = .ok (words, weights))
    (hids : lookUp v words = .ok ids) (hnew : ngrams.seen.contains ids = false) :
    Ngrams.add v order withBackoff ngrams text =
      .ok ⟨ngrams.entries.push ⟨ids, weights⟩, ngrams.seen.insert ids⟩ := by
  have hold : ¬ ngrams.seen.contains ids = true := by
    rw [hnew]
    exact Bool.false_ne_true
  rw [Ngrams.add, hread, ok_bind]
  dsimp only
  rw [hids, ok_bind, if_neg hold]

/-- A section that has the header and the number of lines of its order is one of the file. -/
theorem readHigher_section {v : Vocabulary} {keep last order count number : Nat}
    {declared : List Nat} {text : List Char} {lines rest : List Line} {entries : Array Entry}
    {seen : Std.HashSet (List WordId)} {next : Nat × List Char} {higher : List (Array Entry)}
    (hend : text ≠ endMarker) (htext : text = header order) (hkeep : order ≤ keep)
    (hs : readSection (Ngrams.add v order (order < keep)) last ⟨#[], ∅⟩ 0 lines =
      .ok ⟨⟨entries, seen⟩, count, next, rest⟩)
    (hhigher : readHigher v keep last (order + 1) declared next rest = .ok higher) :
    readHigher v keep last order (count :: declared) (number, text) lines =
      .ok (entries :: higher) := by
  have hcheck : (⟨⟨entries, seen⟩, count, next, rest⟩ : Section Ngrams).checkCount order count =
      .ok () := if_pos rfl
  rw [readHigher, if_neg hend, if_neg (not_not_intro htext), if_pos hkeep, hs, ok_bind, hcheck,
    ok_bind, hhigher, ok_bind]

/-- Words are looked up under the places that they have. -/
theorem lookUp_of_words {v : Vocabulary} (hv : v.Numbered) {words : List String} {ids : List WordId}
    (h : ids.map v.word? = words.map some) : lookUp v words = .ok ids := by
  induction words generalizing ids with
  | nil =>
    rw [List.map_nil, List.map_eq_nil_iff] at h
    rw [h, lookUp]
  | cons word words ih =>
    obtain ⟨id, rest, rfl, hid, hrest⟩ := List.map_eq_cons_iff.mp h
    rw [lookUp, (hv word id).mpr hid, ih hrest]
    rfl

/-! ## A small file -/

/-- The lines of a file of order 4 over three words. -/
def sampleText : List String :=
  ["\\data\\", "ngram 1=3", "ngram 2=3", "ngram 3=2", "ngram 4=1", "\\1-grams:", "-9 <s> -0.5",
    "-1 a -0.25", "-2 b -0.25", "\\2-grams:", "-0.5 <s> a -0.125", "-0.75 a b -1", "-1 b a -2",
    "\\3-grams:", "-0.25 <s> a b -0.5", "-0.5 a b a -1", "\\4-grams:", "-0.125 <s> a b a",
    "\\end\\"]

/-- Its bytes. -/
def sample : List UInt8 := sampleText.flatMap fun line => Text.Utf8.encode line.toList ++ [0x0A]

/-- Its lines with their numbers. -/
def sampleLines : List Line := (sampleText.zipIdx 1).map fun line => ⟨line.2, some line.1.toList⟩

/-- Its vocabulary: the unknown word and the three of the file. -/
def sampleVocabulary : Vocabulary := .ofList [unknownToken, "<s>", "a", "b"]

/-- Its contents. -/
def sampleArpa : Arpa where
  vocabulary := sampleVocabulary
  hasUnknown := false
  unigrams := #[.undefined, ⟨⟨0xC1100000⟩, ⟨0xBF000000⟩⟩, ⟨⟨0xBF800000⟩, ⟨0xBE800000⟩⟩,
    ⟨⟨0xC0000000⟩, ⟨0xBE800000⟩⟩]
  ngrams := [
    #[⟨[1, 2], ⟨0xBF000000⟩, ⟨0xBE000000⟩⟩, ⟨[2, 3], ⟨0xBF400000⟩, ⟨0xBF800000⟩⟩,
      ⟨[3, 2], ⟨0xBF800000⟩, ⟨0xC0000000⟩⟩],
    #[⟨[1, 2, 3], ⟨0xBE800000⟩, ⟨0xBF000000⟩⟩, ⟨[2, 3, 2], ⟨0xBF000000⟩, ⟨0xBF800000⟩⟩],
    #[⟨[1, 2, 3, 2], ⟨0xBE000000⟩, .zero⟩]]

/-- The file is cut into its lines. -/
theorem numbered_sample : Text.numbered (Text.rawLines sample) = sampleLines := by
  decide +kernel

/-- The unigram section. -/
theorem readSection_sample :
    readSection (Lexicon.add true) 19 Lexicon.initial 0 (sampleLines.drop 6) =
      .ok ⟨⟨sampleVocabulary, sampleArpa.unigrams, false⟩, 3, (10, "\\2-grams:".toList),
        sampleLines.drop 10⟩ := by
  have h7 : readNgram 1 true "-9 <s> -0.5".toList =
      .ok (["<s>"], ⟨⟨0xC1100000⟩, ⟨0xBF000000⟩⟩) := rfl
  have h8 : readNgram 1 true "-1 a -0.25".toList =
      .ok (["a"], ⟨⟨0xBF800000⟩, ⟨0xBE800000⟩⟩) := rfl
  have h9 : readNgram 1 true "-2 b -0.25".toList =
      .ok (["b"], ⟨⟨0xC0000000⟩, ⟨0xBE800000⟩⟩) := rfl
  rw [show sampleLines.drop 6 = ⟨7, some "-9 <s> -0.5".toList⟩ :: ⟨8, some "-1 a -0.25".toList⟩ ::
      ⟨9, some "-2 b -0.25".toList⟩ :: ⟨10, some "\\2-grams:".toList⟩ ::
      sampleLines.drop 10 from rfl,
    readSection_line (by decide) (Lexicon.add_line h7 (by decide) ?_),
    readSection_line (by decide) (Lexicon.add_line h8 (by decide) ?_),
    readSection_line (by decide) (Lexicon.add_line h9 (by decide) ?_),
    readSection_end (by decide)]
  · rfl
  all_goals simp [Vocabulary.contains, Vocabulary.push, Vocabulary.empty, Lexicon.initial,
    unknownToken]

/-- Its words are numbered. -/
theorem numbered_sampleVocabulary : sampleVocabulary.Numbered := by
  refine (((Vocabulary.numbered_empty.push ?_).push ?_).push ?_).push ?_
  all_goals simp [Vocabulary.push, Vocabulary.empty, unknownToken]

/-- Its sentences begin with word 1. -/
theorem beginId_sample : sampleVocabulary.beginId = 1 := by
  have hid : sampleVocabulary.ids["<s>"]? = some 1 := (numbered_sampleVocabulary "<s>" 1).mpr rfl
  rw [Vocabulary.beginId, Vocabulary.idOf, Std.HashMap.getD_eq_getD_getElem?, beginToken, hid,
    Option.getD_some]

/-- Its words are looked up. -/
theorem lookUp_sample {words : List String} {ids : List WordId}
    (h : ids.map sampleVocabulary.word? = words.map some) :
    lookUp sampleVocabulary words = .ok ids :=
  lookUp_of_words numbered_sampleVocabulary h

/-- The section of order 2. -/
theorem readSection_bigrams :
    readSection (Ngrams.add sampleVocabulary 2 true) 19 ⟨#[], ∅⟩ 0 (sampleLines.drop 10) =
      .ok ⟨⟨sampleArpa.ngrams[0], ((∅ : Std.HashSet (List WordId)).insert [1, 2]).insert [2, 3]
        |>.insert [3, 2]⟩, 3, (14, "\\3-grams:".toList), sampleLines.drop 14⟩ := by
  have h11 : readNgram 2 true "-0.5 <s> a -0.125".toList =
      .ok (["<s>", "a"], ⟨⟨0xBF000000⟩, ⟨0xBE000000⟩⟩) := rfl
  have h12 : readNgram 2 true "-0.75 a b -1".toList =
      .ok (["a", "b"], ⟨⟨0xBF400000⟩, ⟨0xBF800000⟩⟩) := rfl
  have h13 : readNgram 2 true "-1 b a -2".toList =
      .ok (["b", "a"], ⟨⟨0xBF800000⟩, ⟨0xC0000000⟩⟩) := rfl
  have hids1 : lookUp sampleVocabulary ["<s>", "a"] = .ok [1, 2] := lookUp_sample rfl
  have hids2 : lookUp sampleVocabulary ["a", "b"] = .ok [2, 3] := lookUp_sample rfl
  have hids3 : lookUp sampleVocabulary ["b", "a"] = .ok [3, 2] := lookUp_sample rfl
  rw [show sampleLines.drop 10 = ⟨11, some "-0.5 <s> a -0.125".toList⟩ ::
      ⟨12, some "-0.75 a b -1".toList⟩ :: ⟨13, some "-1 b a -2".toList⟩ ::
      ⟨14, some "\\3-grams:".toList⟩ :: sampleLines.drop 14 from rfl,
    readSection_line (by decide) (Ngrams.add_line h11 hids1 ?_),
    readSection_line (by decide) (Ngrams.add_line h12 hids2 ?_),
    readSection_line (by decide) (Ngrams.add_line h13 hids3 ?_), readSection_end (by decide)]
  · rfl
  all_goals simp

/-- The section of order 3. -/
theorem readSection_trigrams :
    readSection (Ngrams.add sampleVocabulary 3 true) 19 ⟨#[], ∅⟩ 0 (sampleLines.drop 14) =
      .ok ⟨⟨sampleArpa.ngrams[1], ((∅ : Std.HashSet (List WordId)).insert [1, 2, 3]).insert
        [2, 3, 2]⟩, 2, (17, "\\4-grams:".toList), sampleLines.drop 17⟩ := by
  have h15 : readNgram 3 true "-0.25 <s> a b -0.5".toList =
      .ok (["<s>", "a", "b"], ⟨⟨0xBE800000⟩, ⟨0xBF000000⟩⟩) := rfl
  have h16 : readNgram 3 true "-0.5 a b a -1".toList =
      .ok (["a", "b", "a"], ⟨⟨0xBF000000⟩, ⟨0xBF800000⟩⟩) := rfl
  have hids1 : lookUp sampleVocabulary ["<s>", "a", "b"] = .ok [1, 2, 3] := lookUp_sample rfl
  have hids2 : lookUp sampleVocabulary ["a", "b", "a"] = .ok [2, 3, 2] := lookUp_sample rfl
  rw [show sampleLines.drop 14 = ⟨15, some "-0.25 <s> a b -0.5".toList⟩ ::
      ⟨16, some "-0.5 a b a -1".toList⟩ :: ⟨17, some "\\4-grams:".toList⟩ :: sampleLines.drop 17
      from rfl,
    readSection_line (by decide) (Ngrams.add_line h15 hids1 ?_),
    readSection_line (by decide) (Ngrams.add_line h16 hids2 ?_), readSection_end (by decide)]
  · rfl
  all_goals simp

/-- The section of order 4. -/
theorem readSection_fourgrams :
    readSection (Ngrams.add sampleVocabulary 4 false) 19 ⟨#[], ∅⟩ 0 (sampleLines.drop 17) =
      .ok ⟨⟨sampleArpa.ngrams[2], (∅ : Std.HashSet (List WordId)).insert [1, 2, 3, 2]⟩, 1,
        (19, endMarker), []⟩ := by
  have h18 : readNgram 4 false "-0.125 <s> a b a".toList =
      .ok (["<s>", "a", "b", "a"], ⟨⟨0xBE000000⟩, .zero⟩) := rfl
  have hids : lookUp sampleVocabulary ["<s>", "a", "b", "a"] = .ok [1, 2, 3, 2] := lookUp_sample rfl
  rw [show sampleLines.drop 17 = ⟨18, some "-0.125 <s> a b a".toList⟩ :: ⟨19, some endMarker⟩ :: []
      from rfl,
    readSection_line (by decide) (Ngrams.add_line h18 hids ?_), readSection_end (by decide)]
  · rfl
  · simp

/-- The sections above the unigrams. -/
theorem readHigher_sample :
    readHigher sampleVocabulary 4 19 2 [3, 2, 1] (10, "\\2-grams:".toList) (sampleLines.drop 10) =
      .ok sampleArpa.ngrams := by
  have hfour : readHigher sampleVocabulary 4 19 4 [1] (17, "\\4-grams:".toList)
      (sampleLines.drop 17) = .ok [sampleArpa.ngrams[2]] :=
    readHigher_section (by decide) rfl (by decide) readSection_fourgrams rfl
  have hthree : readHigher sampleVocabulary 4 19 3 [2, 1] (14, "\\3-grams:".toList)
      (sampleLines.drop 14) = .ok [sampleArpa.ngrams[1], sampleArpa.ngrams[2]] :=
    readHigher_section (by decide) rfl (by decide) readSection_trigrams hfour
  exact readHigher_section (by decide) rfl (by decide) readSection_bigrams hthree

/-- The contents of the file. -/
theorem ofBytes_sample : ofBytes sample none = .ok sampleArpa := by
  have hlast : (Text.rawLines sample).length = 19 := by decide +kernel
  have hpreamble : skipPreamble 19 sampleLines = .ok (sampleLines.drop 1) := rfl
  have hcounts : readCounts 19 [] (sampleLines.drop 1) = .ok ([3, 3, 2, 1], sampleLines.drop 6) :=
    rfl
  have hkeep : keptOrder [3, 3, 2, 1].length none = 4 := rfl
  rw [ofBytes]
  dsimp only
  rw [hlast, numbered_sample, hpreamble, ok_bind, hcounts, ok_bind]
  dsimp only
  rw [hkeep, if_neg (by decide)]
  exact bind_eq_ok.mpr ⟨_, readSection_sample, bind_eq_ok.mpr ⟨(), rfl, bind_eq_ok.mpr
    ⟨sampleArpa.ngrams, readHigher_sample, rfl⟩⟩⟩

end BackoffLM.Arpa
