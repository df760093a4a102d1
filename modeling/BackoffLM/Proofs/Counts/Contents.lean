import BackoffLM.CountModel.Reader
import BackoffLM.Proofs.Counts.Numbers
import BackoffLM.Proofs.Outcome
import Mathlib.Algebra.BigOperators.Group.Finset.Piecewise
import Mathlib.Algebra.GroupWithZero.Nat
import Mathlib.Algebra.Order.BigOperators.Group.List
import Mathlib.Algebra.Order.Ring.Nat

/-!
# What a count model holds

Of a count file a model keeps the lines that count n-grams of at most as many words as its order
(`kept`). It `Holds` such lines when its words are theirs and when each of its counts, read by
words, is a sum over them, as far as 64 bits hold it: the count of an n-gram over the lines of that
n-gram, the count of a context over the lines that continue it, and the total over the lines of
single words. A line that is taken in adds to these sums (`Holds.add`), so that a model that was
read holds the lines kept of its file (`exists_entries_of_ofBytes`). A sum that fits in 64 bits is the
count itself (`Holds.toNat_countOf`).
-/

namespace BackoffLM.CountModel

/-! ## Lines -/

/-- What the lines of a file say. -/
def entriesOf (bytes : List UInt8) : Except LoadError (List Entry) :=
  readEntries (Text.numbered (Text.rawLines bytes))

/-- The n-gram that a line counts and its count, if the n-gram has at most `limit` words. -/
def Entry.kept? (limit : Nat) : Entry → Option (List String × Nat)
  | .ngram words count => if words.length ≤ limit then some (words, count.toNat) else none
  | .comment | .mixWeight _ => none

/-- The n-grams that a model of an order keeps, line by line, with their counts. -/
def kept (order : Nat) (entries : List Entry) : List (List String × Nat) :=
  entries.filterMap (Entry.kept? (max order 1))

/-- The weight that a line gives. -/
def Entry.mixWeight? : Entry → Option Float
  | .mixWeight weight => some weight
  | .comment | .ngram _ _ => none

/-- The weight that the last line of a weight gives. -/
def lastMixWeight? (entries : List Entry) : Option Float :=
  (entries.filterMap Entry.mixWeight?).getLast?

/-! ## Sums over lines -/

section

variable (p : List String → Prop) [DecidablePred p] (lines : List (List String × Nat))

/-- The counts of the lines whose n-gram has a property, added up. -/
def amount : Nat := (lines.map fun line => if p line.1 then line.2 else 0).sum

/-- The counts of the lines whose n-gram has a property, added up, if there is such a line. -/
def tally? : Option Nat := if ∃ line ∈ lines, p line.1 then some (amount p lines) else none

/-- A line more adds its count if it has the property. -/
theorem amount_append_singleton (ngram : List String) (n : Nat) :
    amount p (lines ++ [(ngram, n)]) = amount p lines + if p ngram then n else 0 := by
  rw [amount, List.map_append, List.sum_append, List.map_singleton, List.sum_singleton]
  rfl

/-- Only lines with the property count. -/
theorem amount_congr {q : List String → Prop} [DecidablePred q]
    (h : ∀ line ∈ lines, p line.1 ↔ q line.1) : amount p lines = amount q lines := by
  unfold amount
  congr 1
  refine List.map_congr_left fun line hline => ?_
  rw [if_congr (h line hline) rfl rfl]

/-- Fewer lines do not count more. -/
theorem amount_le {q : List String → Prop} [DecidablePred q] (h : ∀ ngram, p ngram → q ngram) :
    amount p lines ≤ amount q lines := by
  refine List.sum_le_sum fun line _ => ?_
  by_cases hp : p line.1
  · rw [if_pos hp, if_pos (h _ hp)]
  · rw [if_neg hp]
    exact Nat.zero_le _

/-- No line is the same as nothing to add up. -/
theorem getD_tally? : (tally? p lines).getD 0 = amount p lines := by
  unfold tally?
  split
  · rfl
  · rename_i hnone
    have hzero : ∀ count ∈ lines.map fun line => if p line.1 then line.2 else 0, count = 0 := by
      intro count hcount
      obtain ⟨line, hline, rfl⟩ := List.mem_map.mp hcount
      exact if_neg fun hp => hnone ⟨line, hline, hp⟩
    exact (List.sum_eq_zero hzero).symm

/-- A line more with the property is tallied. -/
theorem tally?_append_singleton (ngram : List String) (n : Nat) :
    tally? p (lines ++ [(ngram, n)]) =
      if p ngram then some ((tally? p lines).getD 0 + n) else tally? p lines := by
  have hexists : (∃ line ∈ lines ++ [(ngram, n)], p line.1) ↔
      (∃ line ∈ lines, p line.1) ∨ p ngram := by
    simp only [List.mem_append, List.mem_singleton, or_and_right, exists_or, exists_eq_left]
  rw [getD_tally?, tally?, amount_append_singleton]
  by_cases hp : p ngram
  · rw [if_pos hp, if_pos hp, if_pos (hexists.mpr (.inr hp))]
  · rw [if_neg hp, if_neg hp, Nat.add_zero, tally?]
    exact if_congr (hexists.trans (or_iff_left hp)) rfl rfl

end

/-- Sums over the n-grams of a set, one by one, are the sum over the lines of all of them. -/
theorem sum_amount {β : Type} (s : Finset β) {ngram : β → List String}
    (hinj : Function.Injective ngram) (lines : List (List String × Nat)) :
    ∑ b ∈ s, amount (· = ngram b) lines = amount (· ∈ s.image ngram) lines := by
  induction lines with
  | nil => exact Finset.sum_const_zero
  | cons line lines ih =>
    have hline : ∑ b ∈ s, (if line.1 = ngram b then line.2 else 0) =
        if line.1 ∈ s.image ngram then line.2 else 0 := by
      rw [← Finset.sum_image (f := fun key => if line.1 = key then line.2 else 0) hinj.injOn,
        Finset.sum_ite_eq]
    calc ∑ b ∈ s, amount (· = ngram b) (line :: lines)
        = ∑ b ∈ s, ((if line.1 = ngram b then line.2 else 0) + amount (· = ngram b) lines) := rfl
      _ = (if line.1 ∈ s.image ngram then line.2 else 0) + amount (· ∈ s.image ngram) lines := by
        rw [Finset.sum_add_distrib, hline, ih]
      _ = amount (· ∈ s.image ngram) (line :: lines) := rfl

/-- What a context is counted by: the n-grams of more than one word that continue it. -/
def Continues (history ngram : List String) : Prop :=
  ngram.length ≠ 1 ∧ ngram.dropLast = history

instance (history : List String) : DecidablePred (Continues history) :=
  fun _ => inferInstanceAs (Decidable (_ ∧ _))

/-! ## The model -/

/-- The words of a model are those of the lines, and its counts are sums over them in 64 bits. -/
structure Holds (m : CountModel) (lines : List (List String × Nat)) : Prop where
  numbering : Numbering m.ids
  counts_keyed : Keyed m.ids m.counts
  contexts_keyed : Keyed m.ids m.contexts
  mem_ids_iff : ∀ word, word ∈ m.ids ↔ ∃ line ∈ lines, word ∈ line.1
  lookUp_counts : ∀ ngram,
    lookUp m.ids m.counts ngram = (tally? (· = ngram) lines).map UInt64.ofNat
  contextOf?_eq : ∀ history,
    m.contextOf? history = (tally? (Continues history) lines).map UInt64.ofNat
  total_eq : m.total = .ofNat (amount (·.length = 1) lines)

/-- A model without counts holds no lines. -/
theorem holds_empty (order : Nat) : (empty order).Holds [] where
  numbering := numbering_empty
  counts_keyed _ h := absurd h Std.HashMap.not_mem_empty
  contexts_keyed _ h := absurd h Std.HashMap.not_mem_empty
  mem_ids_iff word := by
    show word ∈ (∅ : Std.HashMap String WordId) ↔ _
    simp
  lookUp_counts := lookUp_empty ∅
  contextOf?_eq := lookUp_empty ∅
  total_eq := rfl

/-- A sum starts again from zero at every multiple of 2^64. -/
theorem ofNat_eq_zero_iff {n : Nat} : UInt64.ofNat n = 0 ↔ 2 ^ 64 ∣ n := by
  rw [← UInt64.toNat_inj, UInt64.toNat_ofNat', UInt64.toNat_zero, Nat.dvd_iff_mod_eq_zero]

/-- No count is none in 64 bits too. -/
theorem getD_map_ofNat (n : Option Nat) : (n.map UInt64.ofNat).getD 0 = .ofNat (n.getD 0) := by
  cases n <;> rfl

/-- The count of an n-gram is the sum over its lines. -/
theorem Holds.countOf_eq {m : CountModel} {lines : List (List String × Nat)} (h : m.Holds lines)
    (ngram : List String) : m.countOf ngram = .ofNat (amount (· = ngram) lines) := by
  rw [countOf, h.lookUp_counts, getD_map_ofNat, getD_tally?]

/-- The count of an n-gram is the sum itself where the sum over more lines fits in 64 bits. -/
theorem Holds.toNat_countOf {m : CountModel} {lines : List (List String × Nat)} (h : m.Holds lines)
    {p : List String → Prop} [DecidablePred p] (hfits : amount p lines < 2 ^ 64)
    {ngram : List String} (hngram : p ngram) :
    (m.countOf ngram).toNat = amount (· = ngram) lines := by
  have hle : amount (· = ngram) lines ≤ amount p lines := amount_le _ _ fun _ heq => heq ▸ hngram
  rw [h.countOf_eq, UInt64.toNat_ofNat_of_lt' (Nat.lt_of_le_of_lt hle hfits)]

/-- So is the total. -/
theorem Holds.toNat_total {m : CountModel} {lines : List (List String × Nat)} (h : m.Holds lines)
    (hfits : amount (·.length = 1) lines < 2 ^ 64) :
    m.total.toNat = amount (·.length = 1) lines := by
  rw [h.total_eq, UInt64.toNat_ofNat_of_lt' hfits]

/-- When a line is taken in, adding its count under the words that its n-gram belongs to keeps sums
over the lines that belong to each. -/
theorem lookUp_addTo_eq_tally? {ids ids' : Std.HashMap String WordId}
    {m : Std.HashMap (List WordId) UInt64} {lines : List (List String × Nat)}
    {p : List String → List String → Prop} [∀ words, DecidablePred (p words)]
    (hkeyed : Keyed ids m)
    (h : ∀ words, lookUp ids m words = (tally? (p words) lines).map UInt64.ofNat)
    (hids : Extends ids ids') (hnumbering : Numbering ids') {ngram words : List String}
    {key : List WordId} (hspells : Spells ids' words key)
    (hwords : ∀ other, p other ngram ↔ other = words) (n : UInt64) (other : List String) :
    lookUp ids' (addTo m key n) other =
      (tally? (p other) (lines ++ [(ngram, n.toNat)])).map UInt64.ofNat := by
  rw [lookUp_addTo hnumbering hspells, lookUp_extends hids hkeyed, lookUp_extends hids hkeyed, h, h,
    tally?_append_singleton]
  by_cases hother : other = words
  · rw [if_pos hother, if_pos ((hwords other).mpr hother), hother, getD_map_ofNat, Option.map_some,
      UInt64.ofNat_add, UInt64.ofNat_toNat]
  · rw [if_neg hother, if_neg fun hp => hother ((hwords other).mp hp)]

/-- A line that is not too long is added to what the model holds. -/
theorem Holds.add {m : CountModel} {lines : List (List String × Nat)} (h : m.Holds lines)
    {ngram : List String} (hlength : ngram.length ≤ m.order) (n : UInt64) :
    (m.add ngram n).Holds (lines ++ [(ngram, n.toNat)]) := by
  have hkept : ¬ m.order < ngram.length := Nat.not_lt.mpr hlength
  have hinterns := interns_internAll h.numbering ngram
  have hkey : (internAll m.ids ngram).1.length = ngram.length := hinterns.spells.length_eq.symm
  unfold CountModel.add
  rw [if_neg hkept]
  constructor
  case numbering => exact hinterns.numbering
  case counts_keyed =>
    exact (h.counts_keyed.mono hinterns.extension).addTo hinterns.numbering hinterns.spells n
  case contexts_keyed =>
    dsimp only
    split
    · exact h.contexts_keyed.mono hinterns.extension
    · exact (h.contexts_keyed.mono hinterns.extension).addTo hinterns.numbering
        hinterns.spells.dropLast n
  case mem_ids_iff =>
    intro word
    show word ∈ (internAll m.ids ngram).2 ↔ _
    rw [hinterns.mem_iff, h.mem_ids_iff]
    simp only [List.mem_append, List.mem_singleton, or_and_right, exists_or, exists_eq_left]
  case lookUp_counts =>
    exact lookUp_addTo_eq_tally? h.counts_keyed h.lookUp_counts hinterns.extension
      hinterns.numbering hinterns.spells (fun _ => eq_comm) n
  case contextOf?_eq =>
    intro history
    show lookUp (internAll m.ids ngram).2
      (if (internAll m.ids ngram).1.length = 1 then m.contexts
        else addTo m.contexts (internAll m.ids ngram).1.dropLast n) history = _
    rw [hkey]
    -- A single word continues no context.
    by_cases halone : ngram.length = 1
    · have hnot : ¬ Continues history ngram := fun hc => hc.1 halone
      rw [if_pos halone, tally?_append_singleton, if_neg hnot,
        lookUp_extends hinterns.extension h.contexts_keyed]
      exact h.contextOf?_eq history
    · rw [if_neg halone]
      exact lookUp_addTo_eq_tally? h.contexts_keyed h.contextOf?_eq hinterns.extension
        hinterns.numbering hinterns.spells.dropLast
        (fun _ => (and_iff_right halone).trans eq_comm) n history
  case total_eq =>
    dsimp only
    rw [amount_append_singleton, UInt64.ofNat_add, ← h.total_eq, hkey]
    split
    · rw [UInt64.ofNat_toNat]
    · exact (UInt64.add_zero m.total).symm

/-- Counting an n-gram leaves the order. -/
@[simp]
theorem order_add (m : CountModel) (ngram : List String) (n : UInt64) :
    (m.add ngram n).order = m.order := by
  unfold CountModel.add
  split <;> rfl

/-- Counting an n-gram leaves the weight of longer contexts. -/
@[simp]
theorem mixWeight_add (m : CountModel) (ngram : List String) (n : UInt64) :
    (m.add ngram n).mixWeight = m.mixWeight := by
  unfold CountModel.add
  split <;> rfl

/-- Taking in a line adds it if it is kept, and sets the weight that it gives. -/
theorem Holds.addEntry {m : CountModel} {lines : List (List String × Nat)} (h : m.Holds lines)
    (entry : Entry) :
    (m.addEntry entry).Holds (lines ++ (entry.kept? m.order).toList) ∧
      (m.addEntry entry).order = m.order ∧
      (m.addEntry entry).mixWeight = entry.mixWeight?.getD m.mixWeight := by
  cases entry with
  | comment => exact ⟨by rwa [Entry.kept?, Option.toList_none, List.append_nil], rfl, rfl⟩
  | mixWeight weight =>
    rw [Entry.kept?, Option.toList_none, List.append_nil]
    exact ⟨⟨h.numbering, h.counts_keyed, h.contexts_keyed, h.mem_ids_iff, h.lookUp_counts,
      h.contextOf?_eq, h.total_eq⟩, rfl, rfl⟩
  | ngram words count =>
    refine ⟨?_, m.order_add words count, m.mixWeight_add words count⟩
    show (m.add words count).Holds _
    by_cases hlength : words.length ≤ m.order
    · rw [Entry.kept?, if_pos hlength, Option.toList_some]
      exact h.add hlength count
    · have hsame : m.add words count = m := if_pos (Nat.lt_of_not_le hlength)
      rw [hsame, Entry.kept?, if_neg hlength, Option.toList_none, List.append_nil]
      exact h

/-- The weight of the first line holds until a later line gives one. -/
theorem lastMixWeight?_cons (entry : Entry) (entries : List Entry) (standard : Float) :
    (lastMixWeight? (entry :: entries)).getD standard =
      (lastMixWeight? entries).getD (entry.mixWeight?.getD standard) := by
  unfold lastMixWeight?
  rw [List.filterMap_cons]
  cases entry.mixWeight? with
  | none => rfl
  | some weight =>
    dsimp only
    rw [List.getLast?_cons]
    rfl

/-- Taking in lines adds those that are kept, and sets the weight that the last of them gives. -/
theorem Holds.foldl_addEntry {m : CountModel} {lines : List (List String × Nat)} (h : m.Holds lines)
    (entries : List Entry) :
    (entries.foldl CountModel.addEntry m).Holds
        (lines ++ entries.filterMap (Entry.kept? m.order)) ∧
      (entries.foldl CountModel.addEntry m).order = m.order ∧
      (entries.foldl CountModel.addEntry m).mixWeight =
        (lastMixWeight? entries).getD m.mixWeight := by
  induction entries generalizing m lines with
  | nil => exact ⟨by rwa [List.filterMap_nil, List.append_nil], rfl, rfl⟩
  | cons entry entries ih =>
    obtain ⟨hentry, horder, hweight⟩ := h.addEntry entry
    obtain ⟨hentries, horder', hweight'⟩ := ih hentry
    have hlines : lines ++ (entry :: entries).filterMap (Entry.kept? m.order) =
        lines ++ (entry.kept? m.order).toList ++ entries.filterMap (Entry.kept? m.order) := by
      rw [List.filterMap_cons, List.append_assoc]
      cases entry.kept? m.order <;> rfl
    rw [horder] at hentries
    rw [List.foldl_cons, hlines, lastMixWeight?_cons, ← hweight]
    exact ⟨hentries, horder'.trans horder, hweight'⟩

/-! ## The whole file -/

/-- A file is read when its lines are and count a single word. -/
theorem ofBytes_eq_ok_iff {bytes : List UInt8} {order : Nat} {m : CountModel} :
    ofBytes bytes order = .ok m ↔ ∃ entries, entriesOf bytes = .ok entries ∧
      entries.foldl addEntry (empty order) = m ∧ m.total ≠ 0 := by
  unfold ofBytes
  rw [bind_eq_ok]
  refine exists_congr fun entries => and_congr_right fun _ => ?_
  dsimp only
  split
  · rename_i hzero
    simp only [reduceCtorEq, false_iff, not_and, not_not]
    rintro rfl
    exact hzero
  · rename_i hpos
    rw [Except.ok.injEq]
    exact ⟨fun h => ⟨h, h ▸ hpos⟩, And.left⟩

/-- A model that was read holds the lines that it keeps of its file, and has the weight that the
last line of a weight gives. -/
theorem exists_entries_of_ofBytes {bytes : List UInt8} {order : Nat} {m : CountModel}
    (h : ofBytes bytes order = .ok m) : ∃ entries, entriesOf bytes = .ok entries ∧
      m.Holds (kept order entries) ∧ m.order = max order 1 ∧
      m.mixWeight = (lastMixWeight? entries).getD defaultMixWeight := by
  obtain ⟨entries, hentries, rfl, -⟩ := ofBytes_eq_ok_iff.mp h
  exact ⟨entries, hentries, (holds_empty order).foldl_addEntry entries⟩

/-- A file whose lines are read and count a single word, in 64 bits, is read. -/
theorem exists_ofBytes_of_entries {bytes : List UInt8} {entries : List Entry}
    (h : entriesOf bytes = .ok entries) (order : Nat)
    (hpos : ¬ 2 ^ 64 ∣ amount (·.length = 1) (kept order entries)) :
    ∃ m, ofBytes bytes order = .ok m := by
  obtain ⟨hholds, -⟩ := (holds_empty order).foldl_addEntry entries
  refine ⟨_, ofBytes_eq_ok_iff.mpr ⟨entries, h, rfl, ?_⟩⟩
  rw [hholds.total_eq, ne_eq, ofNat_eq_zero_iff]
  exact hpos

end BackoffLM.CountModel
