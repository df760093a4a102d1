import BackoffLM.Proofs.Arpa.Line
import BackoffLM.Proofs.Arpa.Reading

/-!
# Reading fewer orders

`Arpa.upTo` drops the orders of a model above a given one: the lower orders keep their words and
weights, and the highest order that is left has no backoff. `ofBytes_upTo` says that a file which
can be read with all of its orders can be read with fewer, and that this leaves the same contents
with the higher orders dropped. The two readings go through the same lines. What the shorter one
does not look at, the lines of the higher orders and the backoffs of the highest one left, cannot
make it fail, and each line that the longer one accepts does to its result what it does to the
result of the shorter one (`Lexicon.add_keepBackoff`, `Ngrams.add_keepBackoff`), so that whole
sections do (`readSection_map`, `readHigher_upTo`).
-/

namespace BackoffLM

/-- An n-gram with its backoff only below the highest order. -/
def Entry.keepBackoff (hasBackoff : Bool) (e : Entry) : Entry :=
  { e with weights := e.weights.keepBackoff hasBackoff }

namespace Arpa

open Text (Line)

/-- The sections of the orders from `n` up to `k`, without the backoffs of order `k`. -/
def sectionsUpTo (k n : Nat) (sections : List (Array Entry)) : List (Array Entry) :=
  (sections.take (k + 1 - n)).mapIdx fun i s => s.map (Entry.keepBackoff (n + i < k))

/-- The contents with the orders above `k` dropped, where `k` is at least 1: the words and
probabilities of the others, and their backoffs below order `k`. -/
def upTo (a : Arpa) (k : Nat) : Arpa where
  vocabulary := a.vocabulary
  hasUnknown := a.hasUnknown
  unigrams := a.unigrams.map (Weights.keepBackoff (1 < k))
  ngrams := sectionsUpTo k 2 a.ngrams

/-- A section that is kept comes first. -/
theorem sectionsUpTo_cons {k n : Nat} (h : n ≤ k) (s : Array Entry)
    (sections : List (Array Entry)) :
    sectionsUpTo k n (s :: sections) =
      s.map (Entry.keepBackoff (n < k)) :: sectionsUpTo k (n + 1) sections := by
  have hcount : k + 1 - n = k + 1 - (n + 1) + 1 := by omega
  have hshift : (fun i (s : Array Entry) => s.map (Entry.keepBackoff (n + (i + 1) < k))) =
      fun i s => s.map (Entry.keepBackoff (n + 1 + i < k)) := by
    funext i s
    rw [Nat.add_right_comm n 1 i, Nat.add_assoc n i 1]
  rw [sectionsUpTo, hcount, List.take_succ_cons, List.mapIdx_cons, Nat.add_zero, hshift]
  rfl

/-- Above the highest order that is kept there is nothing. -/
theorem sectionsUpTo_of_lt {k n : Nat} (h : k < n) (sections : List (Array Entry)) :
    sectionsUpTo k n sections = [] := by
  have hcount : k + 1 - n = 0 := by omega
  rw [sectionsUpTo, hcount, List.take_zero, List.mapIdx_nil]

/-- The order of what is left. -/
theorem order_upTo {a : Arpa} {k : Nat} (hpos : 1 ≤ k) (hle : k ≤ a.ngrams.length + 1)
    (hmax : k ≤ maxOrder) : (a.upTo k).order = k := by
  have hsix : k ≤ 6 := hmax
  show (((a.ngrams.take (k + 1 - 2)).mapIdx _).length + 1) % 256 = k
  rw [List.length_mapIdx, List.length_take]
  omega

/-! ## One line -/

/-- A line that is accepted with a backoff is accepted without one. -/
theorem readNgram_keepBackoff {order : Nat} {withBackoff keep : Bool} {text : List Char}
    {words : List String} {weights : Weights} (hkeep : keep = true → withBackoff = true)
    (h : readNgram order withBackoff text = .ok (words, weights)) :
    readNgram order keep text = .ok (words, weights.keepBackoff keep) := by
  cases keep with
  | true =>
    rw [hkeep rfl] at h
    exact h
  | false =>
    obtain ⟨probability, fields, extra, hfields, hlength, rfl, hprob, hextra⟩ :=
      exists_fields_of_readNgram h
    exact readNgram_of_fields hfields hlength hprob hextra.withoutBackoff

/-- The words so far, with their backoffs only below the highest order. -/
def Lexicon.keepBackoff (keep : Bool) (l : Lexicon) : Lexicon :=
  { l with unigrams := l.unigrams.map (Weights.keepBackoff keep) }

/-- The unknown word has no backoff before any line. -/
theorem Lexicon.keepBackoff_initial (keep : Bool) :
    Lexicon.initial.keepBackoff keep = Lexicon.initial := by
  cases keep <;> simp [keepBackoff, initial, Weights.keepBackoff, Weights.withoutBackoff,
    Weights.undefined]

/-- A line of the unigram section does the same without backoffs. -/
theorem Lexicon.add_keepBackoff {withBackoff keep : Bool} (hkeep : keep = true → withBackoff = true)
    (l : Lexicon) (text : List Char) (l' : Lexicon) (h : Lexicon.add withBackoff l text = .ok l') :
    Lexicon.add keep (l.keepBackoff keep) text = .ok (l'.keepBackoff keep) := by
  obtain ⟨words, weights, hread, hcases⟩ := Lexicon.add_cases h
  have hread' := readNgram_keepBackoff hkeep hread
  unfold Lexicon.add at h ⊢
  rw [hread, ok_bind] at h
  rw [hread', ok_bind]
  dsimp only at h ⊢
  split at h
  · rename_i hunknown
    rw [if_pos hunknown, ← Except.ok.inj h]
    simp [Lexicon.keepBackoff]
  · rename_i hword
    obtain ⟨hnew, h⟩ := ite_error_eq_ok.mp h
    have hnew' : ¬ (l.keepBackoff keep).vocabulary.contains (words.headD "") = true := hnew
    rw [if_neg hword, if_neg hnew', ← Except.ok.inj h]
    simp [Lexicon.keepBackoff]

/-- The n-grams so far, with their backoffs only below the highest order. -/
def Ngrams.keepBackoff (keep : Bool) (ngrams : Ngrams) : Ngrams :=
  { ngrams with entries := ngrams.entries.map (Entry.keepBackoff keep) }

/-- Before any line there is no n-gram. -/
theorem Ngrams.keepBackoff_empty (keep : Bool) :
    Ngrams.keepBackoff keep ⟨#[], ∅⟩ = ⟨#[], ∅⟩ := by
  simp [keepBackoff]

/-- A line of the section of a higher order does the same without backoffs. -/
theorem Ngrams.add_keepBackoff {v : Vocabulary} {order : Nat} {withBackoff keep : Bool}
    (hkeep : keep = true → withBackoff = true) (ngrams : Ngrams) (text : List Char)
    (ngrams' : Ngrams) (h : Ngrams.add v order withBackoff ngrams text = .ok ngrams') :
    Ngrams.add v order keep (ngrams.keepBackoff keep) text = .ok (ngrams'.keepBackoff keep) := by
  obtain ⟨words, weights, ids, hread, hids, hnew, rfl⟩ := Ngrams.add_cases h
  have hseen : (ngrams.keepBackoff keep).seen.contains ids = false := hnew
  rw [Ngrams.add_line (readNgram_keepBackoff hkeep hread) hids hseen]
  simp [Ngrams.keepBackoff, Entry.keepBackoff]

/-! ## Sections -/

/-- A section whose result is looked at through a function. -/
def Section.map {σ τ : Type} (f : σ → τ) (s : Section σ) : Section τ :=
  ⟨f s.result, s.seen, s.header, s.rest⟩

/-- Where every line does the same to both results, so does a section. -/
theorem readSection_map {σ τ : Type} {add : σ → List Char → Except ArpaFault σ}
    {add' : τ → List Char → Except ArpaFault τ} {f : σ → τ}
    (hadd : ∀ result text result', add result text = .ok result' →
      add' (f result) text = .ok (f result'))
    {last : Nat} {result : σ} {seen : Nat} {lines : List Line} {s : Section σ}
    (h : readSection add last result seen lines = .ok s) :
    readSection add' last (f result) seen lines = .ok (s.map f) := by
  induction lines generalizing result seen with
  | nil => simp [readSection] at h
  | cons line lines ih =>
    rw [readSection] at h ⊢
    obtain ⟨text, htext, h⟩ := bind_eq_ok.mp h
    rw [htext, ok_bind]
    split at h
    · rename_i hopen
      rw [if_pos hopen, ← Except.ok.inj h]
      rfl
    · rename_i hopen
      obtain ⟨next, hnext, h⟩ := bind_eq_ok.mp h
      have hnext' := hadd _ _ _ (mapError_eq_ok.mp hnext)
      rw [if_neg hopen, hnext']
      exact ih h

/-- Looking at a result leaves the number of lines. -/
theorem Section.checkCount_map {σ τ : Type} (f : σ → τ) (s : Section σ) (order declared : Nat) :
    (s.map f).checkCount order declared = s.checkCount order declared := rfl

/-- Sections that are read with all orders are read with fewer. -/
theorem readHigher_upTo {v : Vocabulary} {keep k last n : Nat} {declared : List Nat}
    {opening : Nat × List Char} {lines : List Line} {sections : List (Array Entry)} (hk : k ≤ keep)
    (hall : n + declared.length = keep + 1)
    (h : readHigher v keep last n declared opening lines = .ok sections) :
    readHigher v k last n declared opening lines = .ok (sectionsUpTo k n sections) := by
  induction declared generalizing n opening lines sections with
  | nil =>
    rw [readHigher] at h ⊢
    split at h
    · rename_i hend
      have hnone : sectionsUpTo k n [] = [] := by
        rw [sectionsUpTo, List.take_nil, List.mapIdx_nil]
      rw [if_pos hend, ← Except.ok.inj h, hnone]
    · simp at h
  | cons count declared ih =>
    rw [List.length_cons] at hall
    rw [readHigher] at h ⊢
    obtain ⟨hend, h⟩ := ite_error_eq_ok.mp h
    obtain ⟨hheader, h⟩ := ite_error_eq_ok.mp h
    rw [if_pos (by omega : n ≤ keep)] at h
    obtain ⟨s, hs, h⟩ := bind_eq_ok.mp h
    obtain ⟨⟨⟩, hcount, h⟩ := bind_eq_ok.mp h
    obtain ⟨higher, hhigher, h⟩ := bind_eq_ok.mp h
    have hrest := ih (by omega) hhigher
    rw [if_neg hend, if_neg hheader, ← Except.ok.inj h]
    by_cases hkept : n ≤ k
    · -- The lines are read for both, with a backoff for the shorter one only below order `k`.
      have hbackoff : decide (n < k) = true → decide (n < keep) = true := by
        simp only [decide_eq_true_eq]
        omega
      have hs' := readSection_map (Ngrams.add_keepBackoff hbackoff) hs
      rw [Ngrams.keepBackoff_empty] at hs'
      rw [if_pos hkept, hs', ok_bind, Section.checkCount_map, hcount, ok_bind]
      change (do let higher ← readHigher v k last (n + 1) declared s.header s.rest
                 Except.ok ((s.result.keepBackoff (n < k)).entries :: higher)) = _
      rw [hrest, ok_bind, sectionsUpTo_cons hkept]
      rfl
    · -- The lines are counted only.
      have hs' : readSection (fun (_ : Unit) _ => .ok ()) last () 0 lines =
          .ok (s.map fun _ => ()) :=
        readSection_map (f := fun _ => ()) (fun _ _ _ _ => rfl) hs
      rw [sectionsUpTo_of_lt (by omega)] at hrest
      rw [if_neg hkept, hs', ok_bind, Section.checkCount_map, hcount, ok_bind,
        sectionsUpTo_of_lt (by omega)]
      exact hrest

/-! ## The whole file -/

/-- A file that can be read with all of its orders can be read with any bound on them, which leaves
its contents up to that order: at least the first, and at most all that it has. -/
theorem ofBytes_upTo {bytes : List UInt8} {a : Arpa} (h : ofBytes bytes none = .ok a) (m : Nat) :
    ofBytes bytes (some m) = .ok (a.upTo (min a.order (max m 1))) ∧
      (a.upTo (min a.order (max m 1))).order = min a.order (max m 1) := by
  have hwf := ofBytes_wellFormed h
  have horder := hwf.order_eq
  have hmax := hwf.order_le
  refine ⟨?_, order_upTo (by omega) (by omega) (by omega)⟩
  unfold ofBytes at h ⊢
  obtain ⟨afterData, hpreamble, h⟩ := bind_eq_ok.mp h
  obtain ⟨⟨declared, lines⟩, hcounts, h⟩ := bind_eq_ok.mp h
  have hdeclared : 0 < declared.length := List.length_pos_iff.mpr (readCounts_ne_nil hcounts)
  dsimp only at h ⊢
  rw [hpreamble, ok_bind, hcounts, ok_bind]
  dsimp only
  have hall : keptOrder declared.length none = declared.length := rfl
  rw [hall] at h
  split at h
  · simp at h
  · obtain ⟨s, hs, h⟩ := bind_eq_ok.mp h
    obtain ⟨⟨⟩, hcount, h⟩ := bind_eq_ok.mp h
    obtain ⟨sections, hsections, h⟩ := bind_eq_ok.mp h
    -- All orders that are declared are read, so they are those of the contents.
    obtain ⟨hlength, -⟩ := readHigher_sections hsections
    rw [List.length_tail] at hlength
    have hngrams : a.ngrams = sections := by rw [← Except.ok.inj h]
    rw [hngrams] at horder hmax
    have hkept : keptOrder declared.length (some m) = min a.order (max m 1) := by
      show min declared.length (max m 1) = _
      omega
    generalize hk : min a.order (max m 1) = k at *
    have hbackoff : decide (1 < k) = true → decide (1 < declared.length) = true := by
      simp only [decide_eq_true_eq]
      omega
    have hs' := readSection_map (Lexicon.add_keepBackoff hbackoff) hs
    rw [Lexicon.keepBackoff_initial] at hs'
    have hsections' :=
      readHigher_upTo (k := k) (by omega) (by rw [List.length_tail]; omega) hsections
    rw [hkept, if_neg (by omega), hs', ok_bind, Section.checkCount_map, hcount, ok_bind]
    change (do let ngrams ← readHigher s.result.vocabulary k _ 2 declared.tail s.header s.rest
               Except.ok (⟨s.result.vocabulary, s.result.hasUnknown,
                 s.result.unigrams.map (Weights.keepBackoff (1 < k)), ngrams⟩ : Arpa)) = _
    rw [hsections', ok_bind, ← Except.ok.inj h]
    rfl

/-- A file of order 4 read with two orders. -/
theorem ofBytes_upTo_sample : ofBytes sample none = .ok sampleArpa ∧
    ofBytes sample (some 2) = .ok (sampleArpa.upTo 2) ∧ (sampleArpa.upTo 2).order = 2 :=
  ⟨ofBytes_sample, ofBytes_upTo ofBytes_sample 2⟩

end Arpa

end BackoffLM
