import BackoffLM.Proofs.Arpa.Contents
import BackoffLM.Proofs.Arpa.Division

/-!
# Whether an n-gram may stand in two lines

A line of a section names its n-gram by the fields after the probability (`ngramOf`). The reader
refuses a line whose n-gram it has seen in the section, with one exception: a line of the unknown
word sets the weights of that word, be it the first such line or a later one. So the words of a file
are those of its unigrams but for the unknown word, in order (`words_of_foldlM`), and the n-grams of
a higher order are those of the lines of its section (`Adds.map_words_eq`). `ofBytes_distinct` says
what follows for the whole file: only the unknown word can stand in two lines, and then the file has
fewer words than it declares.
-/

namespace BackoffLM.Arpa

open Text (Line)

/-- The n-gram of a line of a section: the fields after the probability, as many as the order. -/
def ngramOf (order : Nat) (text : List Char) : List String :=
  (((Text.fields text).drop 1).take order).map String.ofList

/-- The n-gram of a line that is read is the one that is read. -/
theorem ngramOf_eq {order : Nat} {withBackoff : Bool} {text : List Char} {words : List String}
    {weights : Weights} (h : readNgram order withBackoff text = .ok (words, weights)) :
    ngramOf order text = words := by
  obtain ⟨probability, fields, extra, hfields, hlength, rfl, -, -⟩ := exists_fields_of_readNgram h
  rw [ngramOf, hfields, List.drop_one, List.tail_cons, List.take_left' hlength]

/-! ## One line after another -/

section

variable {σ : Type} {add : σ → List Char → Except ArpaFault σ} {start result : σ}
  {read : List (List Char)}

/-- Adding one line more is adding it to what the others led to. -/
theorem foldlM_concat_eq_ok {text : List Char} :
    (read ++ [text]).foldlM add start = .ok result ↔
      ∃ before, read.foldlM add start = .ok before ∧ add before text = .ok result := by
  rw [List.foldlM_append, bind_eq_ok]
  refine exists_congr fun before => and_congr_right fun _ => ?_
  rw [List.foldlM_cons, bind_eq_ok]
  constructor
  · rintro ⟨r, hr, h⟩
    rw [hr, Except.ok.inj h]
  · exact fun h => ⟨result, h, rfl⟩

/-- What lines lead to is reached. -/
theorem reached_of_foldlM (h : read.foldlM add start = .ok result) : Reached add start result := by
  induction read using List.reverseRecOn generalizing result with
  | nil =>
    rw [← Except.ok.inj h]
    exact .start
  | append_singleton read text ih =>
    obtain ⟨before, hbefore, hadd⟩ := foldlM_concat_eq_ok.mp h
    exact (ih hbefore).line hadd

end

/-- The words after some lines are the unknown word, and those of the lines of other words. -/
theorem words_of_foldlM {withBackoff : Bool} {read : List (List Char)} {l : Lexicon}
    (h : read.foldlM (Lexicon.add withBackoff) Lexicon.initial = .ok l) :
    l.vocabulary.words.toList.map (fun word => [word]) =
        [unknownToken] :: (read.map (ngramOf 1)).filter (· ≠ [unknownToken]) ∧
      (l.hasUnknown = true ↔ [unknownToken] ∈ read.map (ngramOf 1)) := by
  induction read using List.reverseRecOn generalizing l with
  | nil =>
    rw [← Except.ok.inj h]
    exact ⟨rfl, by simp [Lexicon.initial]⟩
  | append_singleton read text ih =>
    obtain ⟨before, hbefore, hadd⟩ := foldlM_concat_eq_ok.mp h
    obtain ⟨hwords, hunknown⟩ := ih hbefore
    obtain ⟨words, weights, hread, hcases⟩ := Lexicon.add_cases hadd
    obtain ⟨word, rfl⟩ := List.length_eq_one_iff.mp (readNgram_spec hread).1
    rw [List.map_append, List.map_singleton, ngramOf_eq hread, List.filter_append, List.mem_append,
      List.mem_singleton]
    rcases hcases with ⟨hword, rfl⟩ | ⟨hnew, rfl⟩
    · -- The line of the unknown word adds no word.
      have hword : word = unknownToken := hword
      rw [hword]
      exact ⟨by simpa using hwords, by simp⟩
    · -- The unknown word is there from the start, so that this is another one.
      have hreached := reached_of_foldlM hbefore
      have hwf := hreached.invariant Lexicon.initial_wellFormed Lexicon.add_wellFormed
      have hfirst := (hwf.numbered unknownToken unknownId).mpr (Lexicon.unknown_first hreached)
      have hne : word ≠ unknownToken := by
        rintro rfl
        exact absurd (hnew.symm.trans hfirst) (by simp)
      have hother : ¬ [unknownToken] = [word] := fun heq => hne (List.singleton_inj.mp heq).symm
      refine ⟨?_, hunknown.trans (or_iff_left hother).symm⟩
      show (before.vocabulary.words.push word).toList.map _ = _
      rw [Array.toList_push, List.map_append, hwords]
      simp [hne]

/-- The n-grams of a section of a higher order are those of its lines, word by word. -/
theorem Adds.map_words_eq {v : Vocabulary} {order : Nat} {read : List (List Char)}
    {entries : Array Entry} (h : Adds v order read entries) :
    entries.toList.map (fun e => Except.ok e.words) =
      read.map fun text => lookUp v (ngramOf order text) := by
  obtain ⟨withBackoff, seen, h⟩ := h
  induction read using List.reverseRecOn generalizing entries seen with
  | nil =>
    obtain ⟨rfl, -⟩ := Ngrams.mk.inj (Except.ok.inj h)
    rfl
  | append_singleton read text ih =>
    obtain ⟨before, hbefore, hadd⟩ := foldlM_concat_eq_ok.mp h
    obtain ⟨words, weights, ids, hread, hids, -, hnext⟩ := Ngrams.add_cases hadd
    obtain ⟨rfl, -⟩ := Ngrams.mk.inj hnext
    rw [Array.toList_push, List.map_append, List.map_append, ih before.seen hbefore,
      List.map_singleton, List.map_singleton, ngramOf_eq hread, hids]

/-- A section of a higher order has an n-gram for each line. -/
theorem Adds.size_eq {v : Vocabulary} {order : Nat} {read : List (List Char)}
    {entries : Array Entry} (h : Adds v order read entries) : entries.size = read.length := by
  simpa using congrArg List.length h.map_words_eq

/-- Where no two n-grams have the same numbers, no two lines have the same words. -/
theorem Adds.nodup_ngramOf {v : Vocabulary} {order : Nat} {read : List (List Char)}
    {entries : Array Entry} (h : Adds v order read entries)
    (hdistinct : (entries.toList.map Entry.words).Nodup) : (read.map (ngramOf order)).Nodup := by
  have hfound : ((entries.toList.map Entry.words).map
      (Except.ok : List WordId → Except ArpaFault (List WordId))).Nodup :=
    hdistinct.map fun _ _ => Except.ok.inj
  rw [List.map_map] at hfound
  -- Equal words would be looked up alike.
  refine List.Nodup.of_map (lookUp v) ?_
  rw [List.map_map]
  exact h.map_words_eq ▸ hfound

/-! ## The whole file -/

/-- No n-gram stands in two lines of a section. -/
def Distinct (sections : List (List (List Char))) : Prop :=
  ∀ (k : Nat) (s : List (List Char)), sections[k]? = some s → (s.map (ngramOf (k + 1))).Nodup

/-- The number of lines of the unknown word among those of the unigrams. -/
def unknownLines (unigrams : List (List Char)) : Nat :=
  (unigrams.map (ngramOf 1)).count [unknownToken]

/-- The words of a file are distinct, and so only the unknown word can stand in two lines. -/
theorem nodup_of_foldlM {withBackoff : Bool} {read : List (List Char)} {l : Lexicon}
    (hl : l.WellFormed) (h : read.foldlM (Lexicon.add withBackoff) Lexicon.initial = .ok l) :
    ((read.map (ngramOf 1)).filter (· ≠ [unknownToken])).Nodup := by
  have hall : (l.vocabulary.words.toList.map fun word => [word]).Nodup :=
    hl.numbered.nodup.map fun _ _ => List.singleton_inj.mp
  rw [(words_of_foldlM h).1] at hall
  exact (List.nodup_cons.mp hall).2

/-- There are as many words as lines and the unknown word, less the lines of that. -/
theorem size_unigrams_of_foldlM {withBackoff : Bool} {read : List (List Char)} {l : Lexicon}
    (hl : l.WellFormed) (h : read.foldlM (Lexicon.add withBackoff) Lexicon.initial = .ok l) :
    l.unigrams.size = read.length + 1 - unknownLines read := by
  have hwords := congrArg List.length (words_of_foldlM h).1
  rw [List.length_map, List.length_cons, Array.length_toList] at hwords
  -- Every line is that of the unknown word or of another.
  have hlines : read.length = unknownLines read +
      ((read.map (ngramOf 1)).filter (· ≠ [unknownToken])).length := by
    rw [← List.length_map (ngramOf 1), ← List.countP_eq_length_filter, unknownLines, List.count,
      List.length_eq_countP_add_countP (fun ngram => ngram == [unknownToken])]
    congr 2
    ext ngram
    simp
  rw [hl.size_unigrams, Vocabulary.size, hwords]
  omega

/-- Where only the unknown word can stand in two lines, no n-gram does exactly if it does not. -/
theorem distinct_iff {unigrams : List (List Char)} {higher : List (List (List Char))}
    (hunigrams : ((unigrams.map (ngramOf 1)).filter (· ≠ [unknownToken])).Nodup)
    (hhigher : ∀ (k : Nat) (s : List (List Char)), higher[k]? = some s →
      (s.map (ngramOf (k + 2))).Nodup) :
    Distinct (unigrams :: higher) ↔ unknownLines unigrams ≤ 1 := by
  constructor
  · intro hdistinct
    exact List.nodup_iff_count_le_one.mp (hdistinct 0 unigrams rfl) [unknownToken]
  · intro hone k s hk
    cases k with
    | zero =>
      rw [← Option.some.inj hk, List.nodup_iff_count_le_one]
      intro ngram
      by_cases hngram : ngram = [unknownToken]
      · rw [hngram]
        exact hone
      · rw [← List.count_filter (p := (· ≠ [unknownToken])) (by simpa using hngram)]
        exact List.nodup_iff_count_le_one.mp hunigrams ngram
    | succ k => exact hhigher k s hk

/-- A file that is read with all of its orders is divided in one way into the counts that it
declares and its sections, which have as many lines. Only the unknown word can stand in two lines of
a section, so no n-gram does exactly if there is no more than one line of the unknown word. The
n-grams of each order are as many as declared, but that the words are one more where no line is of
the unknown word, and fewer where several are. -/
theorem ofBytes_distinct {bytes : List UInt8} {a : Arpa} (h : ofBytes bytes none = .ok a) :
    ∃ unigrams higher,
      (∀ declared sections, Divided bytes declared sections ↔
        declared = (unigrams :: higher).map List.length ∧ sections = unigrams :: higher) ∧
      (∀ (k : Nat) (s : List (List Char)), (unigrams :: higher)[k]? = some s →
        ((s.map (ngramOf (k + 1))).filter (· ≠ [unknownToken])).Nodup) ∧
      (Distinct (unigrams :: higher) ↔ unknownLines unigrams ≤ 1) ∧
      (a.hasUnknown = true ↔ 0 < unknownLines unigrams) ∧
      a.counts = (unigrams.length + 1 - unknownLines unigrams) :: higher.map List.length := by
  obtain ⟨unigrams, higher, hdivided, ⟨_, hfold⟩, hlength, hadds⟩ := exists_divided_of_ofBytes h
  have hwf := ofBytes_wellFormed h
  have hlexicon : (⟨a.vocabulary, a.unigrams, a.hasUnknown⟩ : Lexicon).WellFormed :=
    ⟨hwf.numbered, hwf.size_unigrams, hwf.unigrams_pos⟩
  have hfirst := nodup_of_foldlM hlexicon hfold
  have hhigher : ∀ (k : Nat) (s : List (List Char)), higher[k]? = some s →
      (s.map (ngramOf (k + 2))).Nodup := by
    intro k s hk
    obtain ⟨hlt, -⟩ := List.getElem?_eq_some_iff.mp hk
    have hentries := List.getElem?_eq_getElem (l := a.ngrams) (i := k) (by omega)
    exact (hadds k s _ hk hentries).nodup_ngramOf (hwf.distinct _ (List.mem_of_getElem? hentries))
  refine ⟨unigrams, higher, fun declared sections => ⟨fun hother => hother.unique hdivided, ?_⟩,
    fun k s hk => ?_, distinct_iff hfirst hhigher, ?_, ?_⟩
  · rintro ⟨rfl, rfl⟩
    exact hdivided
  · cases k with
    | zero => exact Option.some.inj hk ▸ hfirst
    | succ k => exact (hhigher k s hk).filter _
  · rw [(words_of_foldlM hfold).2, unknownLines, List.count_pos_iff]
  · have hsizes : a.ngrams.map Array.size = higher.map List.length := by
      refine List.ext_getElem (by simpa using hlength) fun k hk hk' => ?_
      rw [List.getElem_map, List.getElem_map]
      exact (hadds k _ _ (List.getElem?_eq_getElem _) (List.getElem?_eq_getElem _)).size_eq
    rw [counts, hsizes, size_unigrams_of_foldlM hlexicon hfold]

/-! ## A file with two lines of the unknown word -/

/-- The lines of its unigrams. -/
def doubledUnigrams : List (List Char) := ["-1 <unk>", "-2 <unk>", "-0.5 a"].map String.toList

/-- The lines of the file. -/
def doubledText : List String :=
  ["\\data\\", "ngram 1=3", "ngram 2=1", "\\1-grams:", "-1 <unk>", "-2 <unk>", "-0.5 a",
    "\\2-grams:", "-1 a <unk>", "\\end\\"]

/-- Its bytes. -/
def doubled : List UInt8 := doubledText.flatMap fun line => Text.Utf8.encode line.toList ++ [0x0A]

/-- Its lines with their numbers. -/
def doubledLines : List Line := (doubledText.zipIdx 1).map fun line => ⟨line.2, some line.1.toList⟩

/-- Its contents. -/
def doubledArpa : Arpa where
  vocabulary := .ofList [unknownToken, "a"]
  hasUnknown := true
  unigrams := #[⟨⟨0xC0000000⟩, .zero⟩, ⟨⟨0xBF000000⟩, .zero⟩]
  ngrams := [#[⟨[1, 0], ⟨0xBF800000⟩, .zero⟩]]

/-- The file is cut into its lines. -/
theorem numbered_doubled : Text.numbered (Text.rawLines doubled) = doubledLines := by
  decide +kernel

/-- The file declares three words and gives two of its lines to the unknown word. -/
theorem divided_doubled : Divided doubled [3, 1] [doubledUnigrams, ["-1 a <unk>".toList]] := by
  have hblank : Text.Blank [] := by decide
  have hwords : CountLine 1 3 "ngram 1=3".toList :=
    .mk hblank (by decide : Text.Spaced ["1".toList] "1".toList)
      (by decide : Text.Spaced ["3".toList] "3".toList) rfl rfl
  have hpairs : CountLine 2 1 "ngram 2=1".toList :=
    .mk hblank (by decide : Text.Spaced ["2".toList] "2".toList)
      (by decide : Text.Spaced ["1".toList] "1".toList) rfl rfl
  have hsections : Sections 1 [doubledUnigrams, ["-1 a <unk>".toList]]
      (texts (doubledLines.drop 3)) :=
    .section (by decide) (.section (by decide) .closing)
  have hfile : texts (Text.numbered (Text.rawLines doubled)) = [] ++ some dataMarker ::
      (["ngram 1=3".toList, "ngram 2=1".toList].map some ++ texts (doubledLines.drop 3)) := by
    rw [numbered_doubled]
    rfl
  exact .mk hfile List.not_mem_nil (.cons hwords (.cons hpairs .nil)) hsections

/-- The unigram section, where the second line of the unknown word counts. -/
theorem readSection_doubledUnigrams :
    readSection (Lexicon.add true) 10 Lexicon.initial 0 (doubledLines.drop 4) =
      .ok ⟨⟨doubledArpa.vocabulary, doubledArpa.unigrams, true⟩, 3, (8, header 2),
        doubledLines.drop 8⟩ := by
  have h5 : readNgram 1 true "-1 <unk>".toList = .ok ([unknownToken], ⟨⟨0xBF800000⟩, .zero⟩) := rfl
  have h6 : readNgram 1 true "-2 <unk>".toList = .ok ([unknownToken], ⟨⟨0xC0000000⟩, .zero⟩) := rfl
  have h7 : readNgram 1 true "-0.5 a".toList = .ok (["a"], ⟨⟨0xBF000000⟩, .zero⟩) := rfl
  rw [show doubledLines.drop 4 = ⟨5, some "-1 <unk>".toList⟩ :: ⟨6, some "-2 <unk>".toList⟩ ::
      ⟨7, some "-0.5 a".toList⟩ :: ⟨8, some (header 2)⟩ :: doubledLines.drop 8 from rfl,
    readSection_line (by decide) (Lexicon.add_unknown h5),
    readSection_line (by decide) (Lexicon.add_unknown h6),
    readSection_line (by decide) (Lexicon.add_line h7 (by decide) ?_), readSection_end (by decide)]
  · rfl
  · simp [Vocabulary.contains, Vocabulary.push, Vocabulary.empty, Lexicon.initial, unknownToken]

/-- The section of order 2. -/
theorem readSection_doubledPairs :
    readSection (Ngrams.add doubledArpa.vocabulary 2 false) 10 ⟨#[], ∅⟩ 0 (doubledLines.drop 8) =
      .ok ⟨⟨doubledArpa.ngrams[0], (∅ : Std.HashSet (List WordId)).insert [1, 0]⟩, 1,
        (10, endMarker), []⟩ := by
  have h9 : readNgram 2 false "-1 a <unk>".toList =
      .ok (["a", "<unk>"], ⟨⟨0xBF800000⟩, .zero⟩) := rfl
  have hnumbered : doubledArpa.vocabulary.Numbered := by
    refine (Vocabulary.numbered_empty.push ?_).push ?_
    all_goals simp [Vocabulary.push, Vocabulary.empty, unknownToken]
  have hids : lookUp doubledArpa.vocabulary ["a", "<unk>"] = .ok [1, 0] :=
    lookUp_of_words hnumbered rfl
  rw [show doubledLines.drop 8 = ⟨9, some "-1 a <unk>".toList⟩ :: ⟨10, some endMarker⟩ :: []
      from rfl,
    readSection_line (by decide) (Ngrams.add_line h9 hids ?_), readSection_end (by decide)]
  · rfl
  · simp

/-- The file is read. -/
theorem ofBytes_doubled : ofBytes doubled none = .ok doubledArpa := by
  have hlast : (Text.rawLines doubled).length = 10 := by decide +kernel
  have hpreamble : skipPreamble 10 doubledLines = .ok (doubledLines.drop 1) := rfl
  have hcounts : readCounts 10 [] (doubledLines.drop 1) = .ok ([3, 1], doubledLines.drop 4) := rfl
  have hkeep : keptOrder [3, 1].length none = 2 := rfl
  have hhigher : readHigher doubledArpa.vocabulary 2 10 2 [1] (8, header 2) (doubledLines.drop 8) =
      .ok doubledArpa.ngrams :=
    readHigher_section (by decide) rfl (by decide) readSection_doubledPairs rfl
  rw [ofBytes]
  dsimp only
  rw [hlast, numbered_doubled, hpreamble, ok_bind, hcounts, ok_bind]
  dsimp only
  rw [hkeep, if_neg (by decide)]
  exact bind_eq_ok.mpr ⟨_, readSection_doubledUnigrams, bind_eq_ok.mpr ⟨(), rfl, bind_eq_ok.mpr
    ⟨doubledArpa.ngrams, hhigher, rfl⟩⟩⟩

/-- The file is read although the unknown word stands in two lines, and has fewer words than it
declares. -/
theorem ofBytes_distinct_doubled :
    ofBytes doubled none = .ok doubledArpa ∧
      Divided doubled [3, 1] [doubledUnigrams, ["-1 a <unk>".toList]] ∧
      ¬ Distinct [doubledUnigrams, ["-1 a <unk>".toList]] ∧ doubledArpa.hasUnknown = true ∧
      doubledArpa.counts = [2, 1] := by
  obtain ⟨unigrams, higher, hdivided, -, hdistinct, hunknown, hcounts⟩ :=
    ofBytes_distinct ofBytes_doubled
  obtain ⟨-, hsections⟩ := (hdivided _ _).mp divided_doubled
  obtain ⟨rfl, rfl⟩ := List.cons_eq_cons.mp hsections
  have htwo : unknownLines doubledUnigrams = 2 := by decide
  refine ⟨ofBytes_doubled, divided_doubled, fun h => ?_, hunknown.mpr (by omega), ?_⟩
  · have hone := hdistinct.mp h
    omega
  · rw [hcounts, htwo]
    rfl

end BackoffLM.Arpa
