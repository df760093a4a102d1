import BackoffLM.Proofs.Counts.Contents
import Mathlib.Algebra.BigOperators.Field
import Mathlib.Algebra.Order.Ring.Rat
import Mathlib.Data.List.TakeWhile
import Mathlib.Tactic.FieldSimp
import Mathlib.Tactic.LinearCombination
import Mathlib.Tactic.NormNum
import Mathlib.Tactic.Positivity
import Mathlib.Tactic.Ring

/-!
# Probabilities of all words

In exact fractions, the probabilities that a count model gives to its words after a context add up
to what is left over by words never seen: without context that is what `estimateAlone` gives such a
word, and each longer context that was counted leaves the share of the shorter one (`sum_mixWords`).
The reason is that every count of a model is the sum of those that it is divided into: the total of
the counts of single words (`sum_count_word`), and the count of a context of the counts of the
n-grams that continue it (`sum_count_continuation`). That takes sums that fit in 64 bits (`Fits`): a
total that started again from zero is not the sum of the counts that it divides.

A word never seen, however, keeps the probability that it has without context. So the probabilities
of all words and of one never seen add up to 1 where no longer context was counted, and to more
where one was. `sum_estimate` says to how much.
-/

namespace BackoffLM.CountModel

variable {m : CountModel} {lines : List (List String × Nat)}

/-! ## Counts that are divided up -/

/-- The words of a model as a finite set. -/
def lexicon (m : CountModel) : Finset String := m.ids.keys.toFinset

/-- The words of a model are in its lexicon. -/
theorem mem_lexicon_iff {word : String} : word ∈ m.lexicon ↔ word ∈ m.ids := by
  rw [lexicon, List.mem_toFinset, Std.HashMap.mem_keys]

/-- There are as many words as the model says. -/
theorem card_lexicon (m : CountModel) : m.lexicon.card = m.ids.size := by
  rw [lexicon, List.toFinset_card_of_nodup m.ids.nodup_keys, Std.HashMap.length_keys]

/-- The total is that of the counts of the words. -/
theorem Holds.sum_count_word (h : m.Holds lines)
    (hfits : amount (·.length = 1) lines < 2 ^ 64) :
    ∑ word ∈ m.lexicon, (m.countOf [word]).toNat = m.total.toNat := by
  have hinj : Function.Injective fun word : String => [word] := fun _ _ => List.singleton_inj.mp
  calc ∑ word ∈ m.lexicon, (m.countOf [word]).toNat
      = ∑ word ∈ m.lexicon, amount (· = [word]) lines :=
        Finset.sum_congr rfl fun word _ => h.toNat_countOf hfits (List.length_singleton)
    _ = amount (· ∈ m.lexicon.image fun word => [word]) lines := sum_amount _ hinj lines
    _ = amount (·.length = 1) lines := by
      refine amount_congr _ _ fun line hline => ?_
      rw [Finset.mem_image]
      constructor
      · rintro ⟨word, -, heq⟩
        rw [← heq]
        rfl
      · intro hone
        obtain ⟨word, hword⟩ := List.length_eq_one_iff.mp hone
        refine ⟨word, mem_lexicon_iff.mpr ((h.mem_ids_iff word).mpr ⟨line, hline, ?_⟩), hword.symm⟩
        rw [hword]
        exact List.mem_singleton_self word
    _ = m.total.toNat := (h.toNat_total hfits).symm

/-- A context is continued by every word. -/
theorem continues_concat {history : List String} (hne : history ≠ []) (word : String) :
    Continues history (history ++ [word]) := by
  refine ⟨?_, List.dropLast_concat⟩
  rw [List.length_append, List.length_singleton]
  exact fun hone => hne (List.length_eq_zero_iff.mp (Nat.succ.inj hone))

/-- The counts of the lines that continue a context are those of the n-grams that continue it by a
word. -/
theorem Holds.sum_count_continuation (h : m.Holds lines) {history : List String}
    (hne : history ≠ []) (hfits : amount (Continues history) lines < 2 ^ 64) :
    ∑ word ∈ m.lexicon, (m.countOf (history ++ [word])).toNat =
      amount (Continues history) lines := by
  have hinj : Function.Injective fun word : String => history ++ [word] :=
    fun _ _ heq => List.singleton_inj.mp (List.append_cancel_left heq)
  calc ∑ word ∈ m.lexicon, (m.countOf (history ++ [word])).toNat
      = ∑ word ∈ m.lexicon, amount (· = history ++ [word]) lines :=
        Finset.sum_congr rfl fun word _ => h.toNat_countOf hfits (continues_concat hne word)
    _ = amount (· ∈ m.lexicon.image fun word => history ++ [word]) lines :=
        sum_amount _ hinj lines
    _ = amount (Continues history) lines := by
      refine amount_congr _ _ fun line hline => ?_
      rw [Finset.mem_image]
      constructor
      · rintro ⟨word, -, heq⟩
        rw [← heq]
        exact continues_concat hne word
      · rintro ⟨-, hinit⟩
        have hngram : line.1 ≠ [] := by
          intro hnil
          rw [hnil] at hinit
          exact hne hinit.symm
        refine ⟨line.1.getLast hngram, mem_lexicon_iff.mpr ((h.mem_ids_iff _).mpr
          ⟨line, hline, List.getLast_mem hngram⟩), ?_⟩
        rw [← hinit]
        exact List.dropLast_append_getLast hngram

/-! ## The contexts that are mixed in -/

/-- The counts of the contexts that `mixOlder` divides by: of those that are longer than `history`
by the words of `older`, newest first, as far as they were seen. -/
def consulted (m : CountModel) :
    (history : List String) → (older : List String) → List UInt64
  | _, [] => []
  | history, newest :: older =>
    match m.contextOf? (newest :: history) with
    | none => []
    | some total => total :: m.consulted (newest :: history) older

/-- The contexts that are longer than `history` by one word of `older`, newest first, by two and so
on, as long as a line continues them. -/
def continued (lines : List (List String × Nat)) (history older : List String) :
    List (List String) :=
  (older.inits.tail.map fun newer => newer.reverse ++ history).takeWhile fun longer =>
    ∃ line ∈ lines, Continues longer line.1

/-- The next longer context ends them if no line continues it. -/
theorem continued_cons (lines : List (List String × Nat)) (history older : List String)
    (newest : String) :
    continued lines history (newest :: older) =
      if ∃ line ∈ lines, Continues (newest :: history) line.1 then
        (newest :: history) :: continued lines (newest :: history) older
      else [] := by
  have hinits : (newest :: older).inits.tail.map (fun newer => newer.reverse ++ history) =
      (newest :: history) ::
        older.inits.tail.map fun newer => newer.reverse ++ (newest :: history) := by
    cases older <;> simp
  rw [continued, hinits, List.takeWhile_cons]
  simp only [decide_eq_true_eq]
  rfl

/-- A line continues each of them. -/
theorem exists_line_of_mem_continued {history older longer : List String}
    (h : longer ∈ continued lines history older) : ∃ line ∈ lines, Continues longer line.1 := by
  unfold continued at h
  have hline := List.mem_takeWhile_imp h
  exact of_decide_eq_true hline

/-- A context that a line continues has the counts of such lines, added up. -/
theorem Holds.contextOf?_of_continues (h : m.Holds lines) {history : List String}
    (hline : ∃ line ∈ lines, Continues history line.1) :
    m.contextOf? history = some (.ofNat (amount (Continues history) lines)) := by
  rw [h.contextOf?_eq, tally?, if_pos hline, Option.map_some]

/-- Any other context has no count. -/
theorem Holds.contextOf?_of_not_continues (h : m.Holds lines) {history : List String}
    (hline : ¬ ∃ line ∈ lines, Continues history line.1) : m.contextOf? history = none := by
  rw [h.contextOf?_eq, tally?, if_neg hline, Option.map_none]

/-- The counts that are divided by are those of the contexts that lines continue. -/
theorem Holds.consulted_eq (h : m.Holds lines) (history older : List String) :
    m.consulted history older =
      (continued lines history older).map fun longer =>
        .ofNat (amount (Continues longer) lines) := by
  induction older generalizing history with
  | nil => rfl
  | cons newest older ih =>
    rw [consulted, continued_cons]
    by_cases hline : ∃ line ∈ lines, Continues (newest :: history) line.1
    · rw [h.contextOf?_of_continues hline, if_pos hline, List.map_cons, ← ih (newest :: history)]
    · rw [h.contextOf?_of_not_continues hline, if_neg hline]
      rfl

/-- The counts that an estimate after a context divides up fit in 64 bits, each added up. -/
structure Fits (lines : List (List String × Nat)) (context : List String) : Prop where
  total : amount (·.length = 1) lines < 2 ^ 64
  contexts : ∀ history ∈ continued lines [] context, amount (Continues history) lines < 2 ^ 64

/-! ## Probabilities that are divided up -/

/-- A word that was counted gets one more than its count. -/
theorem estimateAlone_some (n : UInt64) :
    m.estimateAlone (fun n => (n : ℚ)) (some n) =
      ((n.toNat : ℚ) + 1) / (m.total.toNat + m.ids.size + 1) := by
  rw [estimateAlone, Nat.cast_one]

/-- A word never seen gets one. -/
theorem estimateAlone_none :
    m.estimateAlone (fun n => (n : ℚ)) none = 1 / (m.total.toNat + m.ids.size + 1) := by
  rw [estimateAlone, Nat.cast_one]

/-- What all words leave over without context is what a word never seen has. -/
theorem Holds.sum_estimateAlone (h : m.Holds lines)
    (hfits : amount (·.length = 1) lines < 2 ^ 64) :
    1 - ∑ word ∈ m.lexicon, m.estimateAlone (fun n => (n : ℚ)) (some (m.countOf [word])) =
      1 / (m.total.toNat + m.ids.size + 1) := by
  have hsum : ∑ word ∈ m.lexicon, (((m.countOf [word]).toNat : ℚ) + 1) =
      m.total.toNat + m.ids.size := by
    rw [Finset.sum_add_distrib, Finset.sum_const, card_lexicon, nsmul_one, ← Nat.cast_sum,
      h.sum_count_word hfits]
  have hall : (m.total.toNat : ℚ) + m.ids.size + 1 ≠ 0 := by positivity
  rw [Finset.sum_congr rfl fun word _ => estimateAlone_some (m.countOf [word]), ← Finset.sum_div,
    hsum]
  field_simp
  ring

/-- Each context that was counted leaves, of what the shorter one leaves over, the share of the
shorter one. -/
theorem Holds.sum_mixWords (h : m.Holds lines) (weight : ℚ) (history older : List String)
    (hfits : ∀ longer ∈ continued lines history older, amount (Continues longer) lines < 2 ^ 64)
    (hpos : ∀ total ∈ m.consulted history older, 0 < total) (shorter : String → ℚ) :
    1 - ∑ word ∈ m.lexicon,
        m.mixWords (fun n => (n : ℚ)) weight word history (shorter word) older =
      (1 - weight) ^ (m.consulted history older).length *
        (1 - ∑ word ∈ m.lexicon, shorter word) := by
  induction older generalizing history shorter with
  | nil => rw [consulted, List.length_nil, pow_zero, one_mul]; rfl
  | cons newest older ih =>
    by_cases hline : ∃ line ∈ lines, Continues (newest :: history) line.1
    · have hcontext := h.contextOf?_of_continues hline
      have hconsulted : m.consulted history (newest :: older) =
          .ofNat (amount (Continues (newest :: history)) lines) ::
            m.consulted (newest :: history) older := by rw [consulted, hcontext]
      rw [continued_cons, if_pos hline] at hfits
      rw [hconsulted] at hpos ⊢
      obtain ⟨hfit, hfits⟩ := List.forall_mem_cons.mp hfits
      obtain ⟨hpos, hlonger⟩ := List.forall_mem_cons.mp hpos
      have htotal : (UInt64.ofNat (amount (Continues (newest :: history)) lines)).toNat =
          amount (Continues (newest :: history)) lines := UInt64.toNat_ofNat_of_lt' hfit
      rw [UInt64.lt_iff_toNat_lt, htotal, UInt64.toNat_zero] at hpos
      have hne : (amount (Continues (newest :: history)) lines : ℚ) ≠ 0 := by positivity
      -- The shares of the words among the n-grams that continue the context add up to 1.
      have hshares : ∑ word ∈ m.lexicon,
          weight * ((m.countOf (newest :: history ++ [word])).toNat : ℚ) /
            amount (Continues (newest :: history)) lines = weight := by
        rw [← Finset.sum_div, ← Finset.mul_sum, ← Nat.cast_sum,
          h.sum_count_continuation (List.cons_ne_nil _ _) hfit, mul_div_cancel_right₀ _ hne]
      have hmixed : 1 - ∑ word ∈ m.lexicon,
            (weight * ((m.countOf (newest :: history ++ [word])).toNat : ℚ) /
              amount (Continues (newest :: history)) lines + (1 - weight) * shorter word) =
          (1 - weight) * (1 - ∑ word ∈ m.lexicon, shorter word) := by
        rw [Finset.sum_add_distrib, hshares, ← Finset.mul_sum]
        ring
      simp only [mixWords, hcontext, Nat.cast_one, htotal]
      rw [ih (newest :: history) hfits hlonger, hmixed, List.length_cons, pow_succ]
      ring
    · have hcontext := h.contextOf?_of_not_continues hline
      have hconsulted : m.consulted history (newest :: older) = [] := by rw [consulted, hcontext]
      rw [hconsulted, List.length_nil, pow_zero, one_mul]
      simp only [mixWords, hcontext]

/-- A word that no line has takes its share of the shorter context at each context that was
counted. -/
theorem Holds.mixWords_of_notMem (h : m.Holds lines) (weight : ℚ) {word : String}
    (hword : word ∉ m.ids) (history older : List String) (shorter : ℚ) :
    m.mixWords (fun n => (n : ℚ)) weight word history shorter older =
      (1 - weight) ^ (m.consulted history older).length * shorter := by
  have hcount : ∀ history, m.countOf (history ++ [word]) = 0 := by
    intro history
    have hnone : amount (· = history ++ [word]) lines = 0 := by
      refine List.sum_eq_zero fun count hmem => ?_
      obtain ⟨line, hline, rfl⟩ := List.mem_map.mp hmem
      refine if_neg fun heq => hword ((h.mem_ids_iff word).mpr ⟨line, hline, ?_⟩)
      rw [heq]
      exact List.mem_append_right history (List.mem_singleton_self word)
    rw [h.countOf_eq, hnone]
    rfl
  induction older generalizing history shorter with
  | nil => rw [consulted, List.length_nil, pow_zero, one_mul]; rfl
  | cons newest older ih =>
    cases hcontext : m.contextOf? (newest :: history) with
    | none => simp only [mixWords, consulted, hcontext, List.length_nil, pow_zero, one_mul]
    | some total =>
      simp only [mixWords, consulted, hcontext, hcount, UInt64.toNat_zero, Nat.cast_zero,
        Nat.cast_one, mul_zero, zero_div, zero_add]
      rw [ih, List.length_cons, pow_succ]
      ring

/-- In exact fractions, and with any weight, the probabilities after a context of all words of a
model that was read and of one that it does not have add up to 1 when that one is mixed over longer
contexts as the others are, if no count that is divided up overflowed. `estimate` leaves it with the
probability that it has without context, which adds what `k` contexts would have taken from it. -/
theorem sum_estimate {bytes : List UInt8} {order : Nat} (h : ofBytes bytes order = .ok m)
    {entries : List Entry} (hentries : entriesOf bytes = .ok entries) (context : List String)
    (hfits : Fits (kept order entries) (context.take (m.order - 1)))
    (hpos : ∀ total ∈ m.consulted [] (context.take (m.order - 1)), 0 < total) (weight : ℚ)
    {unseen : String} (hunseen : unseen ∉ m.ids) :
    let estimate := fun word => m.estimate (fun n => (n : ℚ)) weight word context
    let mixed := m.mixWords (fun n => (n : ℚ)) weight unseen [] (estimate unseen)
      (context.take (m.order - 1))
    let k := (m.consulted [] (context.take (m.order - 1))).length
    (m.ids.keys.map estimate).sum + mixed = 1 ∧
      (m.ids.keys.map estimate).sum + estimate unseen =
        1 + (1 - (1 - weight) ^ k) / (m.total.toNat + m.ids.size + 1) := by
  intro estimate mixed k
  obtain ⟨read, hread, hholds, -, -⟩ := exists_entries_of_ofBytes h
  obtain rfl : read = entries := Except.ok.inj (hread.symm.trans hentries)
  have halone : estimate unseen = 1 / (m.total.toNat + m.ids.size + 1) :=
    (estimate_of_notMem _ weight hunseen context).trans estimateAlone_none
  have hmixed : mixed = (1 - weight) ^ k * (1 / (m.total.toNat + m.ids.size + 1)) := by
    rw [← halone]
    exact hholds.mixWords_of_notMem weight hunseen [] _ (estimate unseen)
  have hknown : ∀ word ∈ m.lexicon, m.mixWords (fun n => (n : ℚ)) weight word []
      (m.estimateAlone (fun n => (n : ℚ)) (some (m.countOf [word])))
      (context.take (m.order - 1)) = estimate word :=
    fun word hword => (estimate_of_mem _ weight (mem_lexicon_iff.mp hword) context).symm
  have hleft : 1 - (m.ids.keys.map estimate).sum =
      (1 - weight) ^ k * (1 / (m.total.toNat + m.ids.size + 1)) := by
    rw [← hholds.sum_estimateAlone hfits.total,
      ← hholds.sum_mixWords weight [] _ hfits.contexts hpos,
      ← List.sum_toFinset estimate m.ids.nodup_keys]
    exact congrArg (1 - ·) (Finset.sum_congr rfl hknown).symm
  constructor
  · rw [hmixed]
    linear_combination -hleft
  · rw [halone]
    linear_combination -hleft

/-- After `a`, which one line of two words continues, the word `a` and one that the model does not
have get 5/6 and 1/3. -/
theorem sum_estimate_sample :
    let entries := [.ngram ["a"] 1, .ngram ["a", "a"] 1]
    ∃ m, ofBytes (Text.Utf8.encode "a 1\na a 1\n".toList) 2 = .ok m ∧
    entriesOf (Text.Utf8.encode "a 1\na a 1\n".toList) = .ok entries ∧
    Fits (kept 2 entries) (["a"].take (m.order - 1)) ∧
    (∀ total ∈ m.consulted [] (["a"].take (m.order - 1)), 0 < total) ∧ "b" ∉ m.ids ∧
    (m.ids.keys.map fun word => m.estimate (fun n => (n : ℚ)) (1 / 2) word ["a"]).sum +
      m.estimate (fun n => (n : ℚ)) (1 / 2) "b" ["a"] = 7 / 6 := by
  intro entries
  have hread : entriesOf (Text.Utf8.encode "a 1\na a 1\n".toList) = .ok entries := rfl
  obtain ⟨m, hm⟩ := exists_ofBytes_of_entries hread 2 (by decide)
  obtain ⟨read, hentries, hholds, horder, -⟩ := exists_entries_of_ofBytes hm
  rw [hread] at hentries
  rw [← Except.ok.inj hentries] at hholds
  have hwords : ∀ word, word ∈ m.ids ↔ word = "a" := by
    intro word
    rw [hholds.mem_ids_iff]
    simp [entries, kept, Entry.kept?]
  have hsize : m.ids.size = 1 := by
    have hlexicon : m.lexicon = {"a"} := by
      ext word
      rw [mem_lexicon_iff, hwords, Finset.mem_singleton]
    rw [← card_lexicon, hlexicon, Finset.card_singleton]
  have htotal : m.total = 1 := hholds.total_eq.trans (by decide)
  have hcontext : m.contextOf? ["a"] = some 1 := (hholds.contextOf?_eq ["a"]).trans (by decide)
  have hconsulted : m.consulted [] (["a"].take (m.order - 1)) = [1] := by
    rw [horder]
    simp [consulted, hcontext]
  have hfits : Fits (kept 2 entries) (["a"].take (m.order - 1)) := by
    rw [horder]
    exact ⟨by decide, by decide⟩
  have hpos : ∀ total ∈ m.consulted [] (["a"].take (m.order - 1)), 0 < total := by
    intro total htotal
    rw [hconsulted, List.mem_singleton] at htotal
    exact htotal ▸ UInt64.zero_lt_one
  have hunseen : "b" ∉ m.ids := fun hb => absurd ((hwords "b").mp hb) (by decide)
  refine ⟨m, hm, hread, hfits, hpos, hunseen,
    (sum_estimate hm hread ["a"] hfits hpos (1 / 2) hunseen).2.trans ?_⟩
  rw [hconsulted, htotal, hsize, UInt64.toNat_one]
  norm_num

end BackoffLM.CountModel
