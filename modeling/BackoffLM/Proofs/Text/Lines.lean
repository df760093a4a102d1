import BackoffLM.Text.Lines
import BackoffLM.Proofs.Files.Utf8
import BackoffLM.Proofs.Text.Fields

/-!
# Files of lines

The bytes of lines that end in line feeds are cut into those lines again (`rawLines_flatMap`), and
so is a last line, whether or not anything comes after it (`exists_rawLines_append`). What a file
has to say, it says in lines of certain forms with blank lines among them (`InOrder`). The numbering
of lines drops the blank ones, so a reader comes upon lines of these forms and then upon what is
left of the file (`LeadsTo`, `InOrder.exists_leadsTo`).
-/

namespace BackoffLM.Text

/-! ## Cutting bytes at line feeds -/

/-- The bytes of a character that is no line feed hold no line feed. -/
theorem eq_of_lf_mem_utf8EncodeChar {c : Char} (h : 0x0A ∈ String.utf8EncodeChar c) : c = '\n' := by
  have hbyte : ∀ n, n < 256 → (0x0A : UInt8) = UInt8.ofNat n → n = 10 := by
    intro n hn heq
    have hnat := congrArg UInt8.toNat heq
    rw [Utf8.toNat_byte hn] at hnat
    exact hnat.symm
  unfold String.utf8EncodeChar at h
  dsimp only at h
  split at h
  · rename_i hsmall
    have hten : c.val.toNat = 10 := hbyte _ (by omega) (List.mem_singleton.mp h)
    exact Char.toNat_inj.mp hten
  · -- All bytes of a longer character are above `0x7F`.
    exfalso
    have hvalid : c.val.toNat < 0xD800 ∨ (0xDFFF < c.val.toNat ∧ c.val.toNat < 0x110000) := c.valid
    split at h
    · simp only [List.mem_cons, List.not_mem_nil, or_false] at h
      rcases h with h | h <;> have := hbyte _ (by omega) h <;> omega
    · split at h
      all_goals
        simp only [List.mem_cons, List.not_mem_nil, or_false] at h
      · rcases h with h | h | h <;> have := hbyte _ (by omega) h <;> omega
      · rcases h with h | h | h | h <;> have := hbyte _ (by omega) h <;> omega

/-- The bytes of a text without line feeds hold none. -/
theorem lf_not_mem_encode {l : List Char} (h : '\n' ∉ l) : 0x0A ∉ Utf8.encode l := by
  intro hmem
  obtain ⟨c, hc, hbyte⟩ := List.mem_flatMap.mp hmem
  rw [eq_of_lf_mem_utf8EncodeChar hbyte] at hc
  exact h hc

/-- A byte that is no line feed is the first of the first line. -/
theorem rawLines_cons {b : UInt8} {bytes line : List UInt8} {more : List (List UInt8)}
    (hb : b ≠ 0x0A) (h : rawLines bytes = line :: more) :
    rawLines (b :: bytes) = (b :: line) :: more := by
  have hne : ¬ (b == 0x0A) = true := by simpa using hb
  unfold rawLines at h ⊢
  rw [List.foldr_cons, if_neg hne, h]

/-- A line is cut off at its line feed. -/
theorem rawLines_line {line : List UInt8} (h : 0x0A ∉ line) (rest : List UInt8) :
    rawLines (line ++ 0x0A :: rest) = line :: rawLines rest := by
  induction line with
  | nil => rfl
  | cons b line ih =>
    rw [List.mem_cons, not_or] at h
    exact rawLines_cons (Ne.symm h.1) (ih h.2)

/-- Lines that end in line feeds are cut off one by one. -/
theorem rawLines_flatMap {lines : List (List Char)} (h : ∀ l ∈ lines, '\n' ∉ l)
    (rest : List UInt8) :
    rawLines (lines.flatMap (fun l => Utf8.encode l ++ [0x0A]) ++ rest) =
      lines.map Utf8.encode ++ rawLines rest := by
  induction lines with
  | nil => rfl
  | cons l lines ih =>
    obtain ⟨hl, hlines⟩ := List.forall_mem_cons.mp h
    rw [List.flatMap_cons, List.append_assoc, List.append_assoc, List.singleton_append,
      rawLines_line (lf_not_mem_encode hl), ih hlines, List.map_cons, List.cons_append]

/-- The last line of a file needs no line feed. -/
theorem rawLines_last {line : List UInt8} (h : 0x0A ∉ line) (hne : line ≠ []) :
    rawLines line = [line] := by
  induction line with
  | nil => exact absurd rfl hne
  | cons b line ih =>
    rw [List.mem_cons, not_or] at h
    cases line with
    | nil =>
      have hb : ¬ (b == 0x0A) = true := by simpa using Ne.symm h.1
      exact if_neg hb
    | cons b' line => exact rawLines_cons (Ne.symm h.1) (ih h.2 (List.cons_ne_nil b' line))

/-- A line that is not empty is cut off where it ends, whatever comes after it. -/
theorem exists_rawLines_append {line after : List UInt8} (h : 0x0A ∉ line) (hne : line ≠ [])
    (hafter : after = [] ∨ after.head? = some 0x0A) :
    ∃ more, rawLines (line ++ after) = line :: more := by
  cases after with
  | nil =>
    rw [List.append_nil]
    exact ⟨[], rawLines_last h hne⟩
  | cons b rest =>
    have hb : b = 0x0A := by simpa using hafter
    rw [hb]
    exact ⟨rawLines rest, rawLines_line h rest⟩

/-! ## Numbering lines -/

/-- The lines that are not blank of those after the first `i`. -/
def numberedFrom (i : Nat) (raw : List (List UInt8)) : List Line :=
  (raw.zipIdx i).filterMap fun (bytes, i) => Line.ofBytes (i + 1) bytes

/-- A file is numbered from its start. -/
theorem numbered_eq (raw : List (List UInt8)) : numbered raw = numberedFrom 0 raw := rfl

/-- The lines after the first are numbered from the next number. -/
theorem numberedFrom_cons (i : Nat) (bytes : List UInt8) (raw : List (List UInt8)) :
    numberedFrom i (bytes :: raw) =
      match Line.ofBytes (i + 1) bytes with
      | none => numberedFrom (i + 1) raw
      | some line => line :: numberedFrom (i + 1) raw := by
  rw [numberedFrom, List.zipIdx_cons, List.filterMap_cons]
  dsimp only
  cases Line.ofBytes (i + 1) bytes with
  | none => rfl
  | some line => rfl

/-- Blank lines are dropped. -/
theorem numberedFrom_blank {l : List Char} (h : Blank l) (i : Nat) (raw : List (List UInt8)) :
    numberedFrom i (Utf8.encode l :: raw) = numberedFrom (i + 1) raw := by
  have hnone : Line.ofBytes (i + 1) (Utf8.encode l) = none := by
    rw [Line.ofBytes, Utf8.decode_encode]
    dsimp only
    rw [trim_eq_nil_iff.mpr h]
  rw [numberedFrom_cons, hnone]

/-- Other lines are trimmed. -/
theorem numberedFrom_line {l : List Char} (h : ¬ Blank l) (i : Nat) (raw : List (List UInt8)) :
    numberedFrom i (Utf8.encode l :: raw) = ⟨i + 1, some (trim l)⟩ :: numberedFrom (i + 1) raw := by
  have hsome : Line.ofBytes (i + 1) (Utf8.encode l) = some ⟨i + 1, some (trim l)⟩ := by
    rw [Line.ofBytes, Utf8.decode_encode]
    cases htrim : trim l with
    | nil => exact absurd (trim_eq_nil_iff.mp htrim) h
    | cons c text => dsimp only; rw [htrim]
  rw [numberedFrom_cons, hsome]

/-! ## Lines of certain forms -/

/-- The lines that are not blank have the forms, in order. -/
inductive InOrder : (forms : List (List Char → Prop)) → (lines : List (List Char)) → Prop
  | nil : InOrder [] []
  | blank {forms : List (List Char → Prop)} {l : List Char} {lines : List (List Char)} :
    Blank l → InOrder forms lines → InOrder forms (l :: lines)
  | line {form : List Char → Prop} {forms : List (List Char → Prop)} {l : List Char}
      {lines : List (List Char)} :
    ¬ Blank l → form l → InOrder forms lines → InOrder (form :: forms) (l :: lines)

/-- The lines hold texts of the forms, in order, and after them come those of `rest`. -/
inductive LeadsTo (rest : List Line) : (forms : List (List Char → Prop)) → List Line → Prop
  | done : LeadsTo rest [] rest
  | line {form : List Char → Prop} {forms : List (List Char → Prop)} {l : List Char} {number : Nat}
      {lines : List Line} :
    form l → LeadsTo rest forms lines →
      LeadsTo rest (form :: forms) (⟨number, some (trim l)⟩ :: lines)

/-- Lines of the first forms come before those of the others. -/
theorem LeadsTo.exists_middle {rest : List Line} {forms forms' : List (List Char → Prop)}
    {lines : List Line} (h : LeadsTo rest (forms ++ forms') lines) :
    ∃ middle, LeadsTo middle forms lines ∧ LeadsTo rest forms' middle := by
  induction forms generalizing lines with
  | nil => exact ⟨lines, .done, h⟩
  | cons form forms ih =>
    cases h with
    | line hform hlines =>
      obtain ⟨middle, hfirst, hsecond⟩ := ih hlines
      exact ⟨middle, .line hform hfirst, hsecond⟩

/-- A reader comes upon the lines of a file that are not blank, and then upon what is left. -/
theorem InOrder.exists_leadsTo {forms : List (List Char → Prop)} {lines : List (List Char)}
    (h : InOrder forms lines) (i : Nat) (raw : List (List UInt8)) :
    ∃ rest, LeadsTo rest forms (numberedFrom i (lines.map Utf8.encode ++ raw)) := by
  induction h generalizing i with
  | nil => exact ⟨numberedFrom i raw, .done⟩
  | blank hblank _ ih =>
    rw [List.map_cons, List.cons_append, numberedFrom_blank hblank]
    exact ih (i + 1)
  | line hsolid hform _ ih =>
    obtain ⟨rest, hrest⟩ := ih (i + 1)
    rw [List.map_cons, List.cons_append, numberedFrom_line hsolid]
    exact ⟨rest, .line hform hrest⟩

end BackoffLM.Text
