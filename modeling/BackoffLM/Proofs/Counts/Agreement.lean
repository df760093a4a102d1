import BackoffLM.Proofs.Counts.Contents

/-!
# Files that count the same

What a count model says of a word depends on its file only through the counts of n-grams, each added
up over the lines kept of it, and through the last weight (`logProb_eq_of_sameCounts`). The lines
may come in any order, one count may be split over several lines, and lines that count nothing or
too long an n-gram may stand anywhere: when two files keep the same n-grams and count each the same
in all, then every other sum over their lines is the same as well (`SameCounts.amount_eq`). The two
models number the words each in its own order, but they have the same words and, read by words, the
same counts (`Alike`), and no estimate tells two such models apart (`Alike.estimate_eq`).
-/

namespace BackoffLM.CountModel

/-- The same n-grams stand in lines, and the lines of each count it the same in all. -/
structure SameCounts (lines lines' : List (List String × Nat)) : Prop where
  ngrams : ∀ ngram, ngram ∈ lines.map Prod.fst ↔ ngram ∈ lines'.map Prod.fst
  amounts : ∀ ngram, amount (· = ngram) lines = amount (· = ngram) lines'

section

variable {lines lines' : List (List String × Nat)}

/-- A sum over lines is one over their n-grams. -/
theorem amount_eq_sum (p : List String → Prop) [DecidablePred p]
    (lines : List (List String × Nat)) :
    amount p lines =
      ∑ ngram ∈ (lines.map Prod.fst).toFinset with p ngram, amount (· = ngram) lines := by
  refine Eq.trans ?_ (sum_amount _ Function.injective_id lines).symm
  refine amount_congr _ _ fun line hline => ?_
  rw [Finset.image_id, Finset.mem_filter, List.mem_toFinset]
  exact (and_iff_right (List.mem_map_of_mem hline)).symm

/-- Lines of the same counts have the same sums. -/
theorem SameCounts.amount_eq (h : SameCounts lines lines') (p : List String → Prop)
    [DecidablePred p] : amount p lines = amount p lines' := by
  have hngrams : (lines.map Prod.fst).toFinset = (lines'.map Prod.fst).toFinset := by
    ext ngram
    rw [List.mem_toFinset, List.mem_toFinset, h.ngrams]
  rw [amount_eq_sum, amount_eq_sum, hngrams]
  exact Finset.sum_congr rfl fun ngram _ => h.amounts ngram

/-- Lines of the same counts have the same n-grams of any property. -/
theorem SameCounts.exists_iff (h : SameCounts lines lines') (p : List String → Prop) :
    (∃ line ∈ lines, p line.1) ↔ ∃ line ∈ lines', p line.1 := by
  have hmap : ∀ lines : List (List String × Nat),
      (∃ line ∈ lines, p line.1) ↔ ∃ ngram ∈ lines.map Prod.fst, p ngram := by
    intro lines
    simp only [List.mem_map, exists_exists_and_eq_and]
  rw [hmap, hmap]
  exact exists_congr fun ngram => and_congr_left fun _ => h.ngrams ngram

/-- Lines of the same counts are tallied the same. -/
theorem SameCounts.tally?_eq (h : SameCounts lines lines') (p : List String → Prop)
    [DecidablePred p] : tally? p lines = tally? p lines' := by
  unfold tally?
  rw [h.amount_eq p]
  exact if_congr (h.exists_iff p) rfl rfl

end

/-! ## Models that no estimate tells apart -/

/-- Two models have the same words and the same counts, however they number the words. -/
structure Alike (m m' : CountModel) : Prop where
  order_eq : m.order = m'.order
  mixWeight_eq : m.mixWeight = m'.mixWeight
  mem_ids_iff : ∀ word, word ∈ m.ids ↔ word ∈ m'.ids
  countOf_eq : ∀ ngram, m.countOf ngram = m'.countOf ngram
  contextOf?_eq : ∀ history, m.contextOf? history = m'.contextOf? history
  total_eq : m.total = m'.total

/-- Models that hold lines of the same counts are alike. -/
theorem Holds.alike {m m' : CountModel} {lines lines' : List (List String × Nat)}
    (h : m.Holds lines) (h' : m'.Holds lines') (hcounts : SameCounts lines lines')
    (horder : m.order = m'.order) (hweight : m.mixWeight = m'.mixWeight) : m.Alike m' where
  order_eq := horder
  mixWeight_eq := hweight
  mem_ids_iff word := by
    rw [h.mem_ids_iff, h'.mem_ids_iff]
    exact hcounts.exists_iff (word ∈ ·)
  countOf_eq ngram := by rw [h.countOf_eq, h'.countOf_eq, hcounts.amount_eq]
  contextOf?_eq history := by rw [h.contextOf?_eq, h'.contextOf?_eq, hcounts.tally?_eq]
  total_eq := by rw [h.total_eq, h'.total_eq, hcounts.amount_eq]

section

variable {m m' : CountModel} {α : Type} [Add α] [Div α] (ofCount : Nat → α)

/-- The same words are as many. -/
theorem Alike.size_eq (h : m.Alike m') : m.ids.size = m'.ids.size := by
  have hperm : m.ids.keys.Perm m'.ids.keys := by
    rw [List.perm_ext_iff_of_nodup m.ids.nodup_keys m'.ids.nodup_keys]
    intro word
    rw [Std.HashMap.mem_keys, Std.HashMap.mem_keys, h.mem_ids_iff]
  rw [← Std.HashMap.length_keys, ← Std.HashMap.length_keys, hperm.length_eq]

/-- The same estimate without context. -/
theorem Alike.estimateAlone_eq (h : m.Alike m') (n : Option UInt64) :
    m.estimateAlone ofCount n = m'.estimateAlone ofCount n := by
  unfold estimateAlone
  rw [h.total_eq, h.size_eq]

variable [Sub α] [Mul α]

/-- The same mixture of estimates after longer contexts. -/
theorem Alike.mixWords_eq (h : m.Alike m') (weight : α) (word : String)
    (history older : List String) (shorter : α) :
    m.mixWords ofCount weight word history shorter older =
      m'.mixWords ofCount weight word history shorter older := by
  induction older generalizing history shorter with
  | nil => rfl
  | cons newest older ih =>
    rw [mixWords, mixWords, h.contextOf?_eq, h.countOf_eq]
    cases m'.contextOf? (newest :: history) with
    | none => rfl
    | some total => exact ih (newest :: history) _

/-- The same estimate after every context. -/
theorem Alike.estimate_eq (h : m.Alike m') (weight : α) (word : String) (context : List String) :
    m.estimate ofCount weight word context = m'.estimate ofCount weight word context := by
  by_cases hword : word ∈ m.ids
  · rw [estimate_of_mem ofCount weight hword,
      estimate_of_mem ofCount weight ((h.mem_ids_iff word).mp hword), h.estimateAlone_eq,
      h.countOf_eq, h.order_eq, h.mixWords_eq]
  · rw [estimate_of_notMem ofCount weight hword,
      estimate_of_notMem ofCount weight (mt (h.mem_ids_iff word).mpr hword), h.estimateAlone_eq]

end

/-! ## Two files -/

/-- Two count files that are read with the same order say the same of every word after every
context, bit for bit, if the same weight is the last in both, or there is none in both, and if the
n-grams kept of them are the same and counted the same in all. -/
theorem logProb_eq_of_sameCounts {bytes bytes' : List UInt8} {order : Nat} {m m' : CountModel}
    (h : ofBytes bytes order = .ok m) (h' : ofBytes bytes' order = .ok m')
    {entries entries' : List Entry} (hentries : entriesOf bytes = .ok entries)
    (hentries' : entriesOf bytes' = .ok entries')
    (hweight : lastMixWeight? entries = lastMixWeight? entries')
    (hcounts : SameCounts (kept order entries) (kept order entries')) (word : String)
    (context : List String) : m.logProb word context = m'.logProb word context := by
  obtain ⟨read, hread, hholds, horder, hmix⟩ := exists_entries_of_ofBytes h
  obtain ⟨read', hread', hholds', horder', hmix'⟩ := exists_entries_of_ofBytes h'
  obtain rfl : read = entries := Except.ok.inj (hread.symm.trans hentries)
  obtain rfl : read' = entries' := Except.ok.inj (hread'.symm.trans hentries')
  have halike : m.Alike m' :=
    hholds.alike hholds' hcounts (horder.trans horder'.symm) (by rw [hmix, hmix', hweight])
  unfold logProb
  rw [halike.mixWeight_eq, halike.estimate_eq]

/-- A count split over two lines, lines in another order with a comment and a blank line among them,
an n-gram that is too long for order 2, and a weight that does not last. -/
theorem logProb_eq_of_sameCounts_split :
    let bytes := Text.Utf8.encode "mixweight 0.25\na 3\na b 2\n".toList
    let bytes' := Text.Utf8.encode
      "# by hand\nmixweight 0.5\na b 2\na 1\n\nb a b 7\nmixweight .25\na 2\n".toList
    ∃ m m', ofBytes bytes 2 = .ok m ∧ ofBytes bytes' 2 = .ok m' ∧
      ∀ word context, m.logProb word context = m'.logProb word context := by
  intro bytes bytes'
  have hentries : entriesOf bytes = .ok [.mixWeight 0.25, .ngram ["a"] 3, .ngram ["a", "b"] 2] :=
    rfl
  have hentries' : entriesOf bytes' =
      .ok [.comment, .mixWeight 0.5, .ngram ["a", "b"] 2, .ngram ["a"] 1, .ngram ["b", "a", "b"] 7,
        .mixWeight 0.25, .ngram ["a"] 2] := rfl
  obtain ⟨m, hm⟩ := exists_ofBytes_of_entries hentries 2 (by decide)
  obtain ⟨m', hm'⟩ := exists_ofBytes_of_entries hentries' 2 (by decide)
  have hweight : lastMixWeight? [.mixWeight 0.25, .ngram ["a"] 3, .ngram ["a", "b"] 2] =
      some 0.25 := rfl
  have hcounts : SameCounts [(["a"], 3), (["a", "b"], 2)]
      [(["a", "b"], 2), (["a"], 1), (["a"], 2)] := by
    constructor
    · intro ngram
      simp [or_comm]
    · intro ngram
      by_cases ha : ["a"] = ngram
      · simp [amount, ← ha]
      · simp [amount, ha]
  exact ⟨m, m', hm, hm', logProb_eq_of_sameCounts hm hm' hentries hentries' hweight hcounts⟩

end BackoffLM.CountModel
