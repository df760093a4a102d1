import BackoffLM.Proofs.Arpa.Contents
import BackoffLM.Proofs.Arpa.Line
import BackoffLM.Proofs.Registry.Lifecycle
import BackoffLM.Proofs.Scoring.Registration
import BackoffLM.Proofs.Scoring.Sequence
import BackoffLM.Proofs.Text.Fields

/-!
# A registry and a caller's own model agree

One ARPA file can be scored in two ways: a registry looks the words up by their text, and a model of
the caller's own by numbers that the caller registered for them. `score_eq_prob` says that both give
a word of the file the same log probability, bit for bit, after any context, of known and unknown
words and of any length, and however unknown words are scored.

The two read the same contents, although the registry is given a bound on the order
(`ofBytes_of_order_le`). The numbers lead to the words that they were registered for
(`Scorer.wordOf_registerAll`), of which the scored one does not count as unknown
(`idOf_ne_unknownId`), and what the numbers' context leaves out no model can use
(`Scorer.contextState_context`).
-/

namespace BackoffLM

/-! ## The words of a file -/

namespace Arpa

variable {bytes : List UInt8} {a : Arpa}

/-- A bound on the order that is not below it changes nothing. -/
theorem ofBytes_of_order_le (h : ofBytes bytes none = .ok a) {m : Nat} (hm : a.order ≤ m) :
    ofBytes bytes (some m) = .ok a := by
  have horder := (ofBytes_wellFormed h).order_eq
  unfold ofBytes at h ⊢
  obtain ⟨afterData, hpreamble, h⟩ := bind_eq_ok.mp h
  obtain ⟨⟨declared, lines⟩, hcounts, h⟩ := bind_eq_ok.mp h
  dsimp only at h ⊢
  rw [hpreamble, ok_bind, hcounts, ok_bind]
  have hdeclared : 0 < declared.length := List.length_pos_iff.mpr (readCounts_ne_nil hcounts)
  -- All orders that are declared are read, so they are those of the contents.
  have hlength : declared.length = a.order := by
    split at h
    · simp at h
    · obtain ⟨s, -, h⟩ := bind_eq_ok.mp h
      obtain ⟨-, -, h⟩ := bind_eq_ok.mp h
      obtain ⟨sections, hsections, h⟩ := bind_eq_ok.mp h
      obtain ⟨hsections, -⟩ := readHigher_sections hsections
      have hngrams : a.ngrams = sections := by rw [← Except.ok.inj h]
      rw [horder, hngrams, hsections, List.length_tail]
      show _ = min (declared.length + 1 - 2) (declared.length - 1) + 1
      omega
  have hkept : keptOrder declared.length (some m) = keptOrder declared.length none := by
    show min declared.length (max m 1) = declared.length
    omega
  dsimp only
  rw [hkept]
  exact h

/-- The words of a line are not empty. -/
theorem ne_empty_of_readNgram {order : Nat} {withBackoff : Bool} {text : List Char}
    {words : List String} {weights : Weights}
    (h : readNgram order withBackoff text = .ok (words, weights)) {word : String}
    (hword : word ∈ words) : word ≠ "" := by
  obtain ⟨probability, fields, extra, hfields, -, rfl, -, -⟩ := exists_fields_of_readNgram h
  obtain ⟨field, hfield, rfl⟩ := List.mem_map.1 hword
  have hspaced := Text.spaced_fields text
  rw [hfields] at hspaced
  have htoken := hspaced.isToken (List.mem_cons_of_mem _ (List.mem_append_left extra hfield))
  rw [ne_eq, String.ofList_eq_empty_iff]
  exact htoken.ne_nil

/-- The words of a file are not empty. -/
theorem ne_empty_of_contains {atMost : Option Nat} (h : ofBytes bytes atMost = .ok a)
    {word : String} (hword : a.vocabulary.contains word = true) : word ≠ "" := by
  obtain ⟨-, hunigrams, -⟩ := ofBytes_sections h
  have hinvariant : a.vocabulary.ids[""]? = none := by
    refine hunigrams.invariant (P := fun l => l.vocabulary.ids[""]? = none) ?_ ?_
    · simp [Lexicon.initial, Vocabulary.push, Vocabulary.empty, unknownToken]
    · intro l text l' hl hadd
      obtain ⟨words, weights, hread, ⟨-, rfl⟩ | ⟨-, rfl⟩⟩ := Lexicon.add_cases hadd
      · exact hl
      · -- The line has one word, which is the one that is added.
        obtain ⟨hlength, -⟩ := readNgram_spec hread
        obtain ⟨first, rfl⟩ := List.length_eq_one_iff.1 hlength
        have hfirst := ne_empty_of_readNgram hread (List.mem_singleton_self first)
        show (l.vocabulary.ids.insert first _)[""]? = none
        rw [Std.HashMap.getElem?_insert, if_neg (by simpa using hfirst)]
        exact hl
  rintro rfl
  rw [Vocabulary.contains, Std.HashMap.contains_eq_isSome_getElem?, hinvariant] at hword
  cases hword

/-- A word of a file has another number than the unknown word, unless it is that. -/
theorem idOf_ne_unknownId {atMost : Option Nat} (h : ofBytes bytes atMost = .ok a) {word : String}
    (hword : a.vocabulary.contains word = true) (hknown : word ≠ unknownToken) :
    a.vocabulary.idOf word ≠ unknownId := by
  obtain ⟨-, hunigrams, -⟩ := ofBytes_sections h
  have hfirst := Lexicon.unknown_first hunigrams
  rw [Vocabulary.contains, Std.HashMap.contains_eq_isSome_getElem?] at hword
  obtain ⟨id, hid⟩ := Option.isSome_iff_exists.1 hword
  rw [Vocabulary.idOf, Std.HashMap.getD_eq_getD_getElem?, hid, Option.getD_some]
  rintro rfl
  -- The number is the place of the word, where the unknown word is.
  have hplace := ((ofBytes_wellFormed h).numbered word _).1 hid
  exact hknown (Option.some.inj (hplace.symm.trans hfirst))

end Arpa

/-! ## Scores -/

variable {files : Files} {path : String} {bytes : List UInt8} {a : Arpa}

/-- A registry reads the contents of a file, given a bound on the order that they keep. -/
theorem Registry.run_load_standard (hread : files.read path = .ok bytes) (hpath : path ≠ "")
    (ha : Arpa.ofBytes bytes none = .ok a) {order : Int} (horder : (a.order : Int) ≤ order) :
    (load files order path Family.standard.code).run.run empty =
      (.ok (), ⟨some (.standard (Scorer.modelOfArpa a) a.hasUnknown)⟩) := by
  have hwf := Arpa.ofBytes_wellFormed ha
  have hpositive := hwf.order_eq
  have hmax : a.ngrams.length + 1 ≤ 6 := hwf.order_le
  have hbound : a.order ≤ min order.toNat orderLimit := by
    rw [orderLimit]
    omega
  have hbytes : LoadedModel.ofBytes .standard (min order.toNat orderLimit) bytes =
      .ok (.standard (Scorer.modelOfArpa a) a.hasUnknown) := by
    rw [LoadedModel.ofBytes, Arpa.ofBytes_of_order_le ha hbound]
    rfl
  have hfile : Registry.read files .standard order.toNat path =
      .ok (.standard (Scorer.modelOfArpa a) a.hasUnknown) := by
    rw [Registry.read, if_neg (by simpa using hpath), Files.load, hread]
    exact hbytes
  have hfamily : Family.ofCode? Family.standard.code = some .standard := rfl
  have hone : ¬ order < 1 := by omega
  refine run_load_of_fetch_ok rfl ?_
  simp only [fetch, hfamily, if_neg hone, hfile]
  rfl

/-- A file that does not open as a binary one is read as text by its caller. -/
theorem Scorer.ofFile_text (hread : files.read path = .ok bytes)
    (htext : bytes.take 8 ≠ Header.magic) (ha : Arpa.ofBytes bytes none = .ok a)
    (oov : OovScoring) : ofFile files path oov = .ok (ofModel (modelOfArpa a) oov) := by
  have hheader : Header.recognize bytes = .ok none := by
    rw [Header.recognize, Header.parse, List.take_take]
    exact if_pos htext
  simp only [ofFile, Files.load, hread, Except.mapError, ok_bind, hheader, ha]

/-- A registry scores a word of the file in the context state of the words before it. -/
theorem Registry.score_known {m : LanguageModel} {hasUnknown : Bool} {word : String}
    {context : List String} (hword : m.vocabulary.contains word = true) (hempty : word ≠ "")
    (hcontext : "" ∉ context) :
    (⟨some (.standard m hasUnknown)⟩ : Registry).score word context =
      .ok (m.scoreAfter (context.map m.vocabulary.idOf) (m.vocabulary.idOf word)).1.logProb := by
  have hnone : context.findIdx? String.isEmpty = none := by
    rw [List.findIdx?_eq_none_iff]
    intro w hw
    rw [← Bool.not_eq_true, String.isEmpty_iff]
    rintro rfl
    exact hcontext hw
  have hsome : ¬ word.isEmpty = true := by simpa using hempty
  simp only [score, if_neg hsome, hnone, LoadedModel.logProb, hword, Bool.not_true,
    Bool.false_and, Bool.false_eq_true, if_false]

/-- A number that is positive and leads to a word costs what the model says. -/
theorem Scorer.cost_of_known {s : Scorer} {id : ExternalId} (hid : reservedId < id)
    (hword : s.ids.wordOf id ≠ unknownId) (score : LogProb) : s.cost id score = score := by
  have hfake : s.isFake id = false := by
    rw [isFake, OovScoring.isFake]
    cases s.oov.policy with
    | remappedUnknown => exact beq_false_of_ne hword
    | reservedIdOnly => exact beq_false_of_ne (Int.ne_of_gt hid)
  rw [cost, hfake]
  rfl

/-- A registry and a caller's own model of one file agree: every word of the file but the unknown
one has after every context the same log probability, bit for bit, whether the registry is asked for
it by its text, with the newest word of the context first, or the caller's model by the numbers
under which the words of the context and the word itself were registered. -/
theorem Registry.score_eq_prob (hread : files.read path = .ok bytes) (hpath : path ≠ "")
    (htext : bytes.take 8 ≠ Header.magic) (ha : Arpa.ofBytes bytes none = .ok a) {order : Int}
    (horder : (a.order : Int) ≤ order) {word : String} {context : List String}
    (hword : a.vocabulary.contains word = true) (hknown : word ≠ unknownToken)
    (hcontext : "" ∉ context) (oov : OovScoring) {words : List String}
    {number : String → ExternalId} (hwords : ∀ w ∈ word :: context, w ∈ words)
    (hpositive : ∀ w ∈ words, reservedId < number w)
    (hdistinct : ∀ w ∈ words, ∀ other ∈ words, number w = number other → w = other) :
    ∃ registry scorer,
      (load files order path Family.standard.code).run.run empty = (.ok (), registry) ∧
      Scorer.ofFile files path oov = .ok scorer ∧
      (∃ served, (Scorer.registerAll number .ample words).run.run scorer = (.ok ⟨⟩, served)) ∧
      ∀ memory served, (Scorer.registerAll number memory words).run.run scorer = (.ok ⟨⟩, served) →
        registry.score word context =
          .ok (served.prob (context.reverse.map number ++ [number word])) := by
  refine ⟨_, _, run_load_standard hread hpath ha horder, Scorer.ofFile_text hread htext ha oov,
    Scorer.exists_registerAll _ hpositive, fun memory served hserved => ?_⟩
  obtain ⟨hmodel, -, hnumbers⟩ := Scorer.wordOf_registerAll hserved hdistinct
  obtain ⟨hhead, htail⟩ := List.forall_mem_cons.1 hwords
  have hm : (Model.ofArpa 8 a : Model Kind.probing.Index).Loaded := .arpa 8 ha
  have hs : served.model = (Model.ofArpa 8 a : Model Kind.probing.Index).toLanguageModel := hmodel
  have hlast : served.ids.wordOf (number word) = a.vocabulary.idOf word := hnumbers word hhead
  -- The numbers of the context, newest first, lead to the words of the registry's.
  have hbefore : (context.reverse.map number).reverse.map served.ids.wordOf =
      context.map a.vocabulary.idOf := by
    rw [← List.map_reverse, List.reverse_reverse, List.map_map]
    exact List.map_congr_left fun w hw => hnumbers w (htail w hw)
  have hcost := Scorer.cost_of_known (s := served) (hpositive word hhead)
    (hlast ▸ Arpa.idOf_ne_unknownId ha hword hknown)
  rw [score_known hword (Arpa.ne_empty_of_contains ha hword) hcontext,
    Scorer.prob_append_singleton, Scorer.scoreAfter_eq hm hs, hcost, hbefore, hlast]
  rfl

/-- The word `a` of the small file, after more words than any model uses, two of them unknown. -/
theorem Registry.score_eq_prob_sample :
    let files : Files := ⟨fun _ => .ok Arpa.sample⟩
    let number (word : String) : ExternalId := if word = "a" then 7 else if word = "b" then 3 else 5
    let context : List String := ["b", "a", "zebra", "b", "zebra", "a", "b"]
    ∃ registry scorer,
      (load files 9 "m" 0).run.run empty = (.ok (), registry) ∧
      Scorer.ofFile files "m" ⟨⟨0xC1200000⟩, .remappedUnknown⟩ = .ok scorer ∧
      (∃ served, (Scorer.registerAll number .ample ["zebra", "a", "b"]).run.run scorer =
        (.ok ⟨⟩, served)) ∧
      ∀ memory served,
        (Scorer.registerAll number memory ["zebra", "a", "b"]).run.run scorer = (.ok ⟨⟩, served) →
        registry.score "a" context =
          .ok (served.prob (context.reverse.map number ++ [number "a"])) := by
  intro files number context
  have hword : Arpa.sampleVocabulary.contains "a" = true := by
    rw [Vocabulary.contains, Std.HashMap.contains_eq_isSome_getElem?,
      (Arpa.numbered_sampleVocabulary "a" 2).2 (by decide)]
    rfl
  have hread : files.read "m" = .ok Arpa.sample := rfl
  exact score_eq_prob hread (by decide) (by decide) Arpa.ofBytes_sample (by decide) hword
    (by decide) (by decide) _ (by decide) (by decide) (by decide)

end BackoffLM
