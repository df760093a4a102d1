import BackoffLM.Text.Lowercase
import Mathlib.Data.List.Infix

/-!
# What lowercasing leaves

No character that the table of lower cases maps to is in the table itself (`isCovered_image`), so a
lowercased text consists of characters that lowercasing leaves as they are
(`lower_of_mem_lowercase`), and lowercasing it again changes nothing (`lowercase_lowercase`).

A character that no other one is lowercased to is `unmade`. A text of such characters stands in a
lowercased text only where it stood before (`infix_of_infix_lowercase`).
-/

namespace BackoffLM.Text

/-- A character that lowercasing leaves as it is, wherever it stands. -/
def Lower (c : Char) : Prop := c ≠ 'Σ' ∧ lowerChar c = [c]

/-! ## The table of lower cases -/

/-- Where a run maps a code point. -/
def CaseRun.image (run : CaseRun) (n : Nat) : Nat := (Int.ofNat n + run.shift).toNat

/-- Whether a run maps its code points to characters, none of which is `İ`. -/
def CaseRun.maps (run : CaseRun) : Bool :=
  decide (0 ≤ run.first + run.shift) &&
    ((run.image run.last).blt 0x130 ||
      Nat.blt 0x130 (run.image run.first) && (run.image run.last).blt 0xD800 ||
      Nat.blt 0xDFFF (run.image run.first) && (run.image run.last).blt 0x110000)

/-- Whether a code point is in a run. -/
def isCovered (n : Nat) : Bool := lowerRuns.any fun run => run.covers n

/-- Whether a run is mapped before or after another run, or between its code points. -/
def CaseRun.apartFrom (run other : CaseRun) : Bool :=
  (run.image run.last).blt other.first || other.last.blt (run.image run.first) ||
    (run.step == 2 || run.first == run.last) && other.step == 2 &&
      (run.image run.first + other.first) % 2 == 1

theorem lowerRuns_maps : lowerRuns.all CaseRun.maps = true := by
  decide +kernel

theorem lowerRuns_apart : (lowerRuns.all fun run => lowerRuns.all run.apartFrom) = true := by
  decide +kernel

namespace CaseRun

variable {run other : CaseRun} {n : Nat}

/-- The code points of a run are mapped in their order, at their distances. -/
theorem image_eq (h : run.maps = true) (hn : run.covers n = true) :
    run.image n = run.image run.first + (n - run.first) ∧ run.image n ≤ run.image run.last := by
  simp only [covers, Bool.and_eq_true, decide_eq_true_eq] at hn
  simp only [maps, Bool.and_eq_true, decide_eq_true_eq] at h
  obtain ⟨⟨hfirst, hlast⟩, -⟩ := hn
  obtain ⟨hnonneg, -⟩ := h
  simp only [image, Int.ofNat_eq_natCast]
  omega

/-- A run maps its code points to characters, none of which is `İ`. -/
theorem toNat_ofNat_image (h : run.maps = true) (hn : run.covers n = true) :
    (Char.ofNat (run.image n)).toNat = run.image n ∧ run.image n ≠ 0x130 := by
  obtain ⟨hfirst, hlast⟩ := image_eq h hn
  simp only [maps, Bool.and_eq_true, Bool.or_eq_true, Nat.blt_eq] at h
  obtain ⟨-, hrange⟩ := h
  have hvalid : (run.image n).isValidChar := by
    rw [Nat.isValidChar]
    omega
  refine ⟨?_, by omega⟩
  rw [Char.ofNat, dif_pos hvalid]
  rfl

/-- The code points that a run maps to are in no run that it is apart from. -/
theorem covers_image (h : run.maps = true) (hapart : run.apartFrom other = true)
    (hn : run.covers n = true) : other.covers (run.image n) = false := by
  obtain ⟨hfirst, hlast⟩ := image_eq h hn
  rw [Bool.eq_false_iff]
  intro hcovers
  simp only [covers, Bool.and_eq_true, decide_eq_true_eq, beq_iff_eq] at hn hcovers
  simp only [apartFrom, Bool.or_eq_true, Bool.and_eq_true, Nat.blt_eq, beq_iff_eq] at hapart
  obtain ⟨⟨hge, hle⟩, hstep⟩ := hn
  obtain ⟨⟨hge', hle'⟩, hstep'⟩ := hcovers
  obtain (hbefore | hafter) | ⟨⟨hstep2 | hsingle, hother2⟩, hodd⟩ := hapart
  · omega
  · omega
  · rw [hstep2] at hstep
    rw [hother2] at hstep'
    omega
  · rw [hother2] at hstep'
    omega

end CaseRun

section

variable {run : CaseRun} (hrun : run ∈ lowerRuns) {n : Nat} (hn : run.covers n = true)
include hrun

theorem maps_of_mem : run.maps = true := List.all_eq_true.mp lowerRuns_maps run hrun

include hn

/-- The code points that a run of the table maps to are in no run of the table. -/
theorem isCovered_image : isCovered (run.image n) = false := by
  have hapart := List.all_eq_true.mp (List.all_eq_true.mp lowerRuns_apart run hrun)
  rw [isCovered, List.any_eq_false]
  intro other hother
  rw [CaseRun.covers_image (maps_of_mem hrun) (hapart other hother) hn]
  exact Bool.false_ne_true

end

/-! ## Characters -/

/-- Whether a character is in no run and is not `İ`. -/
def isLower (c : Char) : Bool := c != '\u0130' && !isCovered c.toNat

/-- A character that is in no run and is not `İ` is left as it is. -/
theorem lower_of_isLower {c : Char} (h : isLower c = true) : Lower c := by
  rw [isLower, Bool.and_eq_true, bne_iff_ne, Bool.not_eq_true'] at h
  obtain ⟨hdot, huncovered⟩ := h
  refine ⟨?_, ?_⟩
  · rintro rfl
    have hsigma : isCovered 'Σ'.toNat = true := by decide +kernel
    exact Bool.false_ne_true (huncovered.symm.trans hsigma)
  · rw [isCovered, List.any_eq_false] at huncovered
    have hnone : (lowerRuns.find? fun run => run.covers c.toNat) = none :=
      List.find?_eq_none.mpr huncovered
    rw [lowerChar, if_neg hdot, hnone]

/-- The lower case of a character: the two of `İ`, one at a run's distance, or the character. -/
theorem lowerChar_cases (c : Char) :
    (c = '\u0130' ∧ lowerChar c = ['i', '\u0307']) ∨
    (∃ run ∈ lowerRuns, run.covers c.toNat = true ∧
      lowerChar c = [Char.ofNat (run.image c.toNat)]) ∨
    (Lower c ∧ lowerChar c = [c]) := by
  by_cases hdot : c = '\u0130'
  · exact .inl ⟨hdot, by rw [lowerChar, if_pos hdot]⟩
  · cases hfind : lowerRuns.find? fun run => run.covers c.toNat with
    | some run =>
      have hcovers : run.covers c.toNat = true := (List.find?_eq_some_iff_append.mp hfind).1
      refine .inr (.inl ⟨run, List.mem_of_find?_eq_some hfind, hcovers, ?_⟩)
      rw [lowerChar, if_neg hdot, hfind]
      rfl
    | none =>
      have huncovered : isCovered c.toNat = false :=
        List.any_eq_false.mpr (List.find?_eq_none.mp hfind)
      have hlower : Lower c := by
        refine lower_of_isLower ?_
        rw [isLower, huncovered, Bool.not_false, Bool.and_true]
        exact bne_iff_ne.mpr hdot
      exact .inr (.inr ⟨hlower, hlower.2⟩)

/-- The lower case of a character is left as it is. -/
theorem lower_of_mem_lowerChar {c d : Char} (h : d ∈ lowerChar c) : Lower d := by
  obtain ⟨-, hc⟩ | ⟨run, hrun, hcovers, hc⟩ | ⟨hlower, hc⟩ := lowerChar_cases c
  · rw [hc] at h
    have hboth : ['i', '\u0307'].all isLower = true := by decide +kernel
    exact lower_of_isLower (List.all_eq_true.mp hboth d h)
  · obtain ⟨hd, hdot⟩ := CaseRun.toNat_ofNat_image (maps_of_mem hrun) hcovers
    rw [hc, List.mem_singleton] at h
    rw [← h] at hd
    refine lower_of_isLower ?_
    rw [isLower, hd, isCovered_image hrun hcovers, Bool.not_false, Bool.and_true]
    refine bne_iff_ne.mpr ?_
    rintro rfl
    exact hdot hd.symm
  · rw [hc, List.mem_singleton] at h
    rwa [h]

/-- Whether no other character is lowercased to a character. -/
def unmade (x : Char) : Bool :=
  x != 'i' && x != '\u0307' && x != 'ς' &&
    lowerRuns.all fun run => (run.image run.last).blt x.toNat || x.toNat.blt (run.image run.first)

theorem ne_of_unmade {x : Char} (hx : unmade x = true) : x ≠ 'i' ∧ x ≠ '\u0307' ∧ x ≠ 'ς' := by
  simp only [unmade, Bool.and_eq_true, bne_iff_ne] at hx
  exact ⟨hx.1.1.1, hx.1.1.2, hx.1.2⟩

theorem lowerChar_of_unmade {x c : Char} (hx : unmade x = true) (h : x ∈ lowerChar c) :
    lowerChar c = [c] := by
  obtain ⟨-, hc⟩ | ⟨run, hrun, hcovers, hc⟩ | ⟨-, hc⟩ := lowerChar_cases c
  · obtain ⟨hi, hdot, -⟩ := ne_of_unmade hx
    rw [hc] at h
    simp only [List.mem_cons, hi, hdot, List.not_mem_nil, or_self] at h
  · have hfar := List.all_eq_true.mp (Bool.and_eq_true _ _ ▸ hx).2 run hrun
    rw [Bool.or_eq_true, Nat.blt_eq, Nat.blt_eq] at hfar
    obtain ⟨hfirst, hlast⟩ := CaseRun.image_eq (maps_of_mem hrun) hcovers
    obtain ⟨himage, -⟩ := CaseRun.toNat_ofNat_image (maps_of_mem hrun) hcovers
    rw [hc, List.mem_singleton] at h
    rw [← h] at himage
    omega
  · exact hc

/-! ## Texts -/

/-- The lower case of a character of a text, with the characters `before` it, newest first, and
those after it. -/
def lowerAt (before : List Char) (c : Char) (cs : List Char) : List Char :=
  if c = 'Σ' then [if casedNext before && !casedNext cs then 'ς' else 'σ'] else lowerChar c

theorem lowercaseAfter_cons (before : List Char) (c : Char) (cs : List Char) :
    lowercaseAfter before (c :: cs) = lowerAt before c cs ++ lowercaseAfter (c :: before) cs :=
  rfl

/-- The capital sigma has two lower cases; another character has its own, wherever it stands. -/
theorem lowerAt_cases (before : List Char) (c : Char) (cs : List Char) :
    lowerAt before c cs = ['ς'] ∨ lowerAt before c cs = lowerChar c := by
  have hsigma : lowerChar 'Σ' = ['σ'] := rfl
  rw [lowerAt]
  split
  · next hc =>
    rw [hc, hsigma]
    split
    · exact .inl rfl
    · exact .inr rfl
  · exact .inr rfl

theorem lowerAt_of_lower {c : Char} (h : Lower c) (before cs : List Char) :
    lowerAt before c cs = [c] := by
  rw [lowerAt, if_neg h.1, h.2]

theorem lowerAt_ne_nil (before : List Char) (c : Char) (cs : List Char) :
    lowerAt before c cs ≠ [] := by
  obtain h | h := lowerAt_cases before c cs
  · rw [h]
    exact List.cons_ne_nil _ _
  · obtain ⟨-, hc⟩ | ⟨run, -, -, hc⟩ | ⟨-, hc⟩ := lowerChar_cases c <;>
    · rw [h, hc]
      exact List.cons_ne_nil _ _

theorem lower_of_mem_lowerAt {before cs : List Char} {c d : Char} (h : d ∈ lowerAt before c cs) :
    Lower d := by
  obtain hc | hc := lowerAt_cases before c cs
  · have hfinal : isLower 'ς' = true := by decide +kernel
    rw [hc, List.mem_singleton] at h
    rw [h]
    exact lower_of_isLower hfinal
  · rw [hc] at h
    exact lower_of_mem_lowerChar h

theorem lowerAt_of_unmade {before cs : List Char} {c x : Char} (hx : unmade x = true)
    (h : x ∈ lowerAt before c cs) : lowerAt before c cs = [c] := by
  obtain hc | hc := lowerAt_cases before c cs
  · rw [hc, List.mem_singleton] at h
    exact absurd h (ne_of_unmade hx).2.2
  · rw [hc] at h ⊢
    exact lowerChar_of_unmade hx h

/-- A lowercased text consists of characters that lowercasing leaves as they are. -/
theorem lower_of_mem_lowercaseAfter {before cs : List Char} {d : Char}
    (h : d ∈ lowercaseAfter before cs) : Lower d := by
  induction cs generalizing before with
  | nil => exact absurd h List.not_mem_nil
  | cons c cs ih =>
    rw [lowercaseAfter_cons, List.mem_append] at h
    exact h.elim lower_of_mem_lowerAt ih

theorem lower_of_mem_lowercase {cs : List Char} {d : Char} (h : d ∈ lowercase cs) : Lower d :=
  lower_of_mem_lowercaseAfter h

theorem lowercaseAfter_of_lower {before cs : List Char} (h : ∀ c ∈ cs, Lower c) :
    lowercaseAfter before cs = cs := by
  induction cs generalizing before with
  | nil => rfl
  | cons c cs ih =>
    obtain ⟨hc, hcs⟩ := List.forall_mem_cons.mp h
    rw [lowercaseAfter_cons, lowerAt_of_lower hc, ih hcs, List.singleton_append]

/-- A text of characters that lowercasing leaves as they are is left as it is. -/
theorem lowercase_of_lower {cs : List Char} (h : ∀ c ∈ cs, Lower c) : lowercase cs = cs :=
  lowercaseAfter_of_lower h

/-- Lowercasing a lowercased text changes nothing. -/
theorem lowercase_lowercase (cs : List Char) : lowercase (lowercase cs) = lowercase cs :=
  lowercase_of_lower fun _ => lower_of_mem_lowercase

/-- Only the empty text has an empty lower case. -/
theorem lowercase_ne_nil {cs : List Char} (h : cs ≠ []) : lowercase cs ≠ [] := by
  obtain ⟨c, cs, rfl⟩ := List.exists_cons_of_ne_nil h
  rw [lowercase, lowercaseAfter_cons]
  exact List.append_ne_nil_of_left_ne_nil (lowerAt_ne_nil [] c cs) _

/-! ## Characters that are not made -/

section

variable {text : List Char} (htext : ∀ x ∈ text, unmade x = true)
include htext

/-- A text of characters that are not made begins a lowercased text only where it began before. -/
theorem prefix_of_prefix_lowercaseAfter {before cs : List Char}
    (h : text <+: lowercaseAfter before cs) : text <+: cs := by
  induction cs generalizing before text with
  | nil => exact h
  | cons c cs ih =>
    cases text with
    | nil => exact List.nil_prefix
    | cons x text =>
      obtain ⟨hx, hrest⟩ := List.forall_mem_cons.mp htext
      rw [lowercaseAfter_cons] at h
      obtain ⟨y, lower, hlower⟩ := List.exists_cons_of_ne_nil (lowerAt_ne_nil before c cs)
      have hxy : x = y := by
        rw [hlower, List.cons_append] at h
        exact (List.cons_prefix_cons.mp h).1
      have hmem : x ∈ lowerAt before c cs := by
        rw [hlower, hxy]
        exact List.mem_cons_self
      rw [lowerAt_of_unmade hx hmem, List.singleton_append, List.cons_prefix_cons] at h
      exact List.cons_prefix_cons.mpr ⟨h.1, ih hrest h.2⟩

/-- A text of characters that are not made is not begun by other characters. -/
theorem infix_of_infix_append {front rest : List Char} (hfront : ∀ y ∈ front, unmade y ≠ true)
    (h : text <:+: front ++ rest) : text <:+: rest := by
  induction front with
  | nil => exact h
  | cons y front ih =>
    obtain ⟨hy, hfront⟩ := List.forall_mem_cons.mp hfront
    rw [List.cons_append, List.infix_cons_iff] at h
    rcases h with hbegins | hstands
    · cases text with
      | nil => exact List.nil_infix
      | cons x text =>
        rw [List.cons_prefix_cons] at hbegins
        exact absurd (hbegins.1 ▸ htext x List.mem_cons_self) hy
    · exact ih hfront hstands

theorem infix_of_infix_lowercaseAfter {before cs : List Char}
    (h : text <:+: lowercaseAfter before cs) : text <:+: cs := by
  induction cs generalizing before with
  | nil => exact h
  | cons c cs ih =>
    by_cases hmade : ∃ x ∈ lowerAt before c cs, unmade x = true
    · obtain ⟨x, hmem, hx⟩ := hmade
      -- Such a character is lowercased to itself, so the text may begin at it.
      have hbegins : text <+: lowercaseAfter before (c :: cs) → text <+: c :: cs :=
        prefix_of_prefix_lowercaseAfter htext
      rw [lowercaseAfter_cons, lowerAt_of_unmade hx hmem, List.singleton_append] at h hbegins
      rw [List.infix_cons_iff] at h ⊢
      exact h.imp hbegins ih
    · have hmade : ∀ x ∈ lowerAt before c cs, unmade x ≠ true :=
        fun x hmem hx => hmade ⟨x, hmem, hx⟩
      rw [lowercaseAfter_cons] at h
      exact (ih (infix_of_infix_append htext hmade h)).trans (List.suffix_cons c cs).isInfix

/-- A text of characters that are not made stands in a lowercased text only where it stood
before. -/
theorem infix_of_infix_lowercase {cs : List Char} (h : text <:+: lowercase cs) : text <:+: cs :=
  infix_of_infix_lowercaseAfter htext h

end

end BackoffLM.Text
