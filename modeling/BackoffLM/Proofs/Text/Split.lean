import BackoffLM.Text.Split
import Mathlib.Data.List.Infix

/-!
# What splitting leaves

The pieces between the occurrences of a delimiter are made of the characters of the text
(`mem_of_mem_parts`), and the delimiter stands in none of them (`absent_of_mem_parts`): as long
as a piece grows, the delimiter does not begin at any of its characters (`Passed`), in the piece or
beyond it. So splitting stops there: a text in which the delimiter does not stand is its only piece
(`parts_of_absent`).
-/

namespace BackoffLM.Text

variable {delimiter : List Char}

/-- The delimiter begins at none of the characters that were passed, with the rest of the text after
them. -/
def Passed (delimiter passed rest : List Char) : Prop :=
  ∀ tail, tail <:+ passed → tail ≠ [] → ¬ delimiter <+: tail ++ rest

/-- Nothing was passed at first. -/
theorem passed_nil (rest : List Char) : Passed delimiter [] rest :=
  fun _ htail hne => absurd (List.suffix_nil.mp htail) hne

/-- A character at which the delimiter does not begin is passed. -/
theorem Passed.concat {passed rest : List Char} {c : Char} (h : Passed delimiter passed (c :: rest))
    (hc : ¬ delimiter <+: c :: rest) : Passed delimiter (passed ++ [c]) rest := by
  intro tail hsuffix hne
  obtain rfl | ⟨front, rfl, hfront⟩ := List.suffix_concat_iff.mp hsuffix
  · exact absurd rfl hne
  · rw [List.append_assoc, List.singleton_append]
    by_cases hnil : front = []
    · rwa [hnil, List.nil_append]
    · exact h front hfront hnil

/-- What was passed does not hold the delimiter. -/
theorem Passed.absent {passed rest : List Char} (hne : delimiter ≠ [])
    (h : Passed delimiter passed rest) : ¬ delimiter <:+: passed := by
  intro hstands
  obtain ⟨tail, hbegins, hsuffix⟩ := List.infix_iff_prefix_suffix.mp hstands
  have htail : tail ≠ [] := fun hnil => hne (List.prefix_nil.mp (hnil ▸ hbegins))
  exact h tail hsuffix htail (hbegins.trans (List.prefix_append tail rest))

/-- The pieces from some place on, where the delimiter begins at no character of the piece so far,
hold no delimiter. No piece grows while an occurrence of the delimiter is passed. -/
theorem absent_of_mem_splitFrom (hne : delimiter ≠ []) {skip : Nat} {piece text part : List Char}
    (hskip : skip ≠ 0 → piece = []) (hpassed : Passed delimiter piece.reverse text)
    (h : part ∈ splitFrom delimiter skip piece text) : ¬ delimiter <:+: part := by
  induction text generalizing skip piece with
  | nil =>
    rw [splitFrom, List.mem_singleton] at h
    rw [h]
    exact hpassed.absent hne
  | cons c text ih =>
    cases skip with
    | succ skip =>
      rw [splitFrom] at h
      rw [hskip (Nat.succ_ne_zero skip)] at h
      exact ih (fun _ => rfl) (passed_nil text) h
    | zero =>
      rw [splitFrom] at h
      by_cases hbegins : delimiter.isPrefixOf (c :: text) = true
      · rw [if_pos hbegins, List.mem_cons] at h
        rcases h with rfl | h
        · exact hpassed.absent hne
        · exact ih (fun _ => rfl) (passed_nil text) h
      · rw [if_neg hbegins] at h
        refine ih (fun hskip => absurd rfl hskip) ?_ h
        rw [List.reverse_cons]
        exact hpassed.concat fun hfront => hbegins <| List.isPrefixOf_iff_prefix.mpr hfront

/-- The pieces from some place on are made of the piece so far and the text. -/
theorem mem_of_mem_splitFrom {skip : Nat} {piece text part : List Char}
    (h : part ∈ splitFrom delimiter skip piece text) {c : Char} (hc : c ∈ part) :
    c ∈ piece ∨ c ∈ text := by
  induction text generalizing skip piece with
  | nil =>
    rw [splitFrom, List.mem_singleton] at h
    rw [h, List.mem_reverse] at hc
    exact .inl hc
  | cons d text ih =>
    cases skip with
    | succ skip =>
      rw [splitFrom] at h
      exact (ih h).imp_right (List.mem_cons_of_mem d)
    | zero =>
      rw [splitFrom] at h
      split at h
      · rcases List.mem_cons.mp h with rfl | h
        · exact .inl (List.mem_reverse.mp hc)
        · exact .inr (List.mem_cons_of_mem d ((ih h).resolve_left List.not_mem_nil))
      · rcases ih h with hpiece | htext
        · rcases List.mem_cons.mp hpiece with rfl | hpiece
          · exact .inr List.mem_cons_self
          · exact .inl hpiece
        · exact .inr (List.mem_cons_of_mem d htext)

/-- Where the delimiter does not stand, the rest of the text belongs to the piece. -/
theorem splitFrom_of_absent {piece text : List Char} (h : ¬ delimiter <:+: text) :
    splitFrom delimiter 0 piece text = [piece.reverse ++ text] := by
  induction text generalizing piece with
  | nil => rw [splitFrom, List.append_nil]
  | cons c text ih =>
    have hbegins : ¬ delimiter.isPrefixOf (c :: text) = true := by
      intro hfront
      have hfront := List.isPrefixOf_iff_prefix.mp hfront
      exact h hfront.isInfix
    have hlater : ¬ delimiter <:+: text := fun hstands =>
      h (hstands.trans (List.suffix_cons c text).isInfix)
    rw [splitFrom, if_neg hbegins, ih hlater, List.reverse_cons, List.append_assoc,
      List.singleton_append]

/-- Where only the rest of an occurrence is left, the last piece is empty. -/
theorem splitFrom_length (text : List Char) : splitFrom delimiter text.length [] text = [[]] := by
  induction text with
  | nil => rfl
  | cons c text ih => rwa [List.length_cons, splitFrom]

/-! ## Parts -/

section

variable {text part : List Char} (hne : delimiter ≠ [])
include hne

theorem split_eq (text : List Char) : split delimiter text = splitFrom delimiter 0 [] text := by
  rw [split, if_neg (fun hempty => hne (List.isEmpty_iff.mp hempty))]

/-- No part holds the delimiter. -/
theorem absent_of_mem_parts (h : part ∈ parts delimiter text) : ¬ delimiter <:+: part := by
  rw [parts, split_eq hne] at h
  exact absent_of_mem_splitFrom hne (fun _ => rfl) (passed_nil text) (List.mem_of_mem_filter h)

/-- Parts are made of the characters of the text. -/
theorem mem_of_mem_parts (h : part ∈ parts delimiter text) {c : Char} (hc : c ∈ part) :
    c ∈ text := by
  rw [parts, split_eq hne] at h
  exact (mem_of_mem_splitFrom (List.mem_of_mem_filter h) hc).resolve_left List.not_mem_nil

/-- A text that does not hold the delimiter is its only part. -/
theorem parts_of_absent (htext : text ≠ []) (h : ¬ delimiter <:+: text) :
    parts delimiter text = [text] := by
  rw [parts, split_eq hne, splitFrom_of_absent h, List.reverse_nil, List.nil_append,
    List.filter_singleton, List.isEmpty_eq_false_iff.mpr htext]
  rfl

/-- The delimiter itself has no parts. -/
theorem parts_self : parts delimiter delimiter = [] := by
  obtain ⟨c, rest, rfl⟩ := List.exists_cons_of_ne_nil hne
  have hbegins : (c :: rest).isPrefixOf (c :: rest) = true :=
    List.isPrefixOf_iff_prefix.mpr (List.prefix_refl _)
  rw [parts, split_eq hne, splitFrom, if_pos hbegins, List.length_cons, Nat.add_sub_cancel,
    splitFrom_length]
  rfl

end

/-- No part is empty. -/
theorem ne_nil_of_mem_parts {text part : List Char} (h : part ∈ parts delimiter text) :
    part ≠ [] := by
  have hfilter := List.of_mem_filter h
  intro hnil
  rw [hnil] at hfilter
  exact Bool.false_ne_true hfilter

end BackoffLM.Text
