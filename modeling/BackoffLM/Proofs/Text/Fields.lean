import BackoffLM.Text.Blank
import Mathlib.Data.List.DropRight

/-!
# Texts that hold fields

`Spaced tokens cs` says what it means for a text to hold some fields: they stand in it one after
another, with blanks between any two and at either end or not. Cutting a text into fields finds
exactly the ones that it holds (`spaced_iff`), and trimming a text changes none of them
(`Spaced.trim`). A text of one field is trimmed to that field (`Spaced.trim_eq`), and one of more
opens with the first of them (`Spaced.head?_trim`).
-/

namespace BackoffLM.Text

/-- Blank characters only. -/
def Blank (cs : List Char) : Prop := ∀ c ∈ cs, isBlank c = true

instance (cs : List Char) : Decidable (Blank cs) := decidable_of_iff _ List.all_eq_true

/-- A field: some characters, none of which is blank. -/
structure IsToken (cs : List Char) : Prop where
  ne_nil : cs ≠ []
  solid : ∀ c ∈ cs, isBlank c = false

instance (cs : List Char) : Decidable (IsToken cs) :=
  decidable_of_iff (cs ≠ [] ∧ cs.all (! isBlank ·) = true)
    ⟨fun h => ⟨h.1, by simpa using h.2⟩, fun h => ⟨h.ne_nil, by simpa using h.solid⟩⟩

/-- The text holds the fields, one after another, each with a blank after it or at the end. -/
inductive Spaced : (tokens : List (List Char)) → (cs : List Char) → Prop
  | blank {cs : List Char} : Blank cs → Spaced [] cs
  | field {before token rest : List Char} {tokens : List (List Char)} :
    Blank before → IsToken token → opensBlank rest = true → Spaced tokens rest →
      Spaced (token :: tokens) (before ++ (token ++ rest))

/-! ## Cutting a text into fields -/

/-- Blanks before a text add no field. -/
theorem fields_blank_append {before : List Char} (h : Blank before) (cs : List Char) :
    fields (before ++ cs) = fields cs := by
  induction before with
  | nil => rfl
  | cons c before ih =>
    obtain ⟨hc, hbefore⟩ := List.forall_mem_cons.mp h
    rw [List.cons_append, fields, if_pos hc, ih hbefore]

/-- A field with a blank after it, or at the end, is cut off. -/
theorem fields_token_append {token rest : List Char} (h : IsToken token)
    (hrest : opensBlank rest = true) : fields (token ++ rest) = token :: fields rest := by
  obtain ⟨hne, hsolid⟩ := h
  induction token with
  | nil => exact absurd rfl hne
  | cons c token ih =>
    obtain ⟨hc, htoken⟩ := List.forall_mem_cons.mp hsolid
    rw [List.cons_append, fields, hc, if_neg Bool.false_ne_true]
    cases token with
    | nil => rw [List.nil_append, if_pos hrest]
    | cons c' token =>
      -- The next character is of the same field.
      have hopen : opensBlank (c' :: token ++ rest) = false := htoken c' List.mem_cons_self
      rw [hopen, if_neg Bool.false_ne_true, ih (List.cons_ne_nil c' token) htoken]

/-- Of a text that holds fields these are cut off. -/
theorem Spaced.fields_eq {tokens : List (List Char)} {cs : List Char} (h : Spaced tokens cs) :
    fields cs = tokens := by
  induction h with
  | blank hblank =>
    have hnone := fields_blank_append hblank []
    rwa [List.append_nil] at hnone
  | field hbefore htoken hrest _ ih =>
    rw [fields_blank_append hbefore, fields_token_append htoken hrest, ih]

/-- Every character of a text of one field is blank or of the field. -/
theorem Spaced.mem {token cs : List Char} (h : Spaced [token] cs) {c : Char} (hc : c ∈ cs) :
    isBlank c = true ∨ c ∈ token := by
  cases h with
  | @field before _ rest _ hbefore _ _ hspaced =>
    cases hspaced with
    | blank hblank =>
      rcases List.mem_append.mp hc with hc | hc
      · exact .inl (hbefore c hc)
      · rcases List.mem_append.mp hc with hc | hc
        · exact .inr hc
        · exact .inl (hblank c hc)

/-- The fields of a text are tokens. -/
theorem Spaced.isToken {tokens : List (List Char)} {cs : List Char} (h : Spaced tokens cs)
    {token : List Char} (htoken : token ∈ tokens) : IsToken token := by
  induction h with
  | blank => cases htoken
  | field _ hfirst _ _ ih =>
    rcases List.mem_cons.mp htoken with rfl | htoken
    · exact hfirst
    · exact ih htoken

/-- A blank before a text adds no field. -/
theorem Spaced.cons_blank {tokens : List (List Char)} {c : Char} {cs : List Char}
    (h : Spaced tokens cs) (hc : isBlank c = true) : Spaced tokens (c :: cs) := by
  cases h with
  | blank hblank => exact .blank (List.forall_mem_cons.mpr ⟨hc, hblank⟩)
  | @field before token rest tokens hbefore htoken hrest hspaced =>
    have hmore : Blank (c :: before) := List.forall_mem_cons.mpr ⟨hc, hbefore⟩
    exact .field hmore htoken hrest hspaced

/-- A text that does not open with a blank opens with a field, which another character makes
longer. -/
theorem Spaced.cons_solid {token : List Char} {tokens : List (List Char)} {c : Char}
    {cs : List Char} (h : Spaced (token :: tokens) cs) (hc : isBlank c = false)
    (hcs : opensBlank cs = false) : Spaced ((c :: token) :: tokens) (c :: cs) := by
  cases h with
  | @field before _ rest _ hbefore htoken hrest hspaced =>
    cases before with
    | nil =>
      have hlonger : IsToken (c :: token) :=
        ⟨List.cons_ne_nil c token, List.forall_mem_cons.mpr ⟨hc, htoken.solid⟩⟩
      exact .field hbefore hlonger hrest hspaced
    | cons b before =>
      have hb : isBlank b = true := hbefore b List.mem_cons_self
      exact absurd (hb.symm.trans hcs) (by decide)

/-- A text holds the fields that it is cut into. -/
theorem spaced_fields (cs : List Char) : Spaced (fields cs) cs := by
  induction cs with
  | nil => exact .blank (by simp [Blank])
  | cons c cs ih =>
    rw [fields]
    split
    · exact ih.cons_blank ‹_›
    · rename_i hc
      rw [Bool.not_eq_true] at hc
      split
      · rename_i hopen
        have hone : IsToken [c] := ⟨List.cons_ne_nil c [], by simpa using hc⟩
        have hnone : Blank [] := by simp [Blank]
        exact .field hnone hone hopen ih
      · rename_i hopen
        rw [Bool.not_eq_true] at hopen
        cases hfields : fields cs with
        | nil =>
          -- A text without fields opens with a blank.
          rw [hfields] at ih
          cases ih with
          | blank hblank =>
            cases cs with
            | nil => exact absurd hopen (by decide)
            | cons c' cs =>
              exact absurd ((hblank c' List.mem_cons_self).symm.trans hopen) (by decide)
        | cons token tokens =>
          rw [hfields] at ih
          exact ih.cons_solid hc hopen

/-- Cutting a text into fields finds exactly the ones that it holds. -/
theorem spaced_iff {tokens : List (List Char)} {cs : List Char} :
    Spaced tokens cs ↔ fields cs = tokens := by
  constructor
  · exact Spaced.fields_eq
  · rintro rfl
    exact spaced_fields cs

instance (tokens : List (List Char)) (cs : List Char) : Decidable (Spaced tokens cs) :=
  decidable_of_iff _ spaced_iff.symm

/-! ## Trimming -/

/-- Blanks after a text add no field. -/
theorem fields_append_blank (cs : List Char) {after : List Char} (h : Blank after) :
    fields (cs ++ after) = fields cs := by
  induction cs with
  | nil => exact (Spaced.blank h).fields_eq
  | cons c cs ih =>
    have hopen : opensBlank (cs ++ after) = opensBlank cs := by
      cases cs with
      | cons c' cs => rfl
      | nil =>
        cases after with
        | nil => rfl
        | cons b after => exact h b List.mem_cons_self
    rw [List.cons_append, fields, fields, ih, hopen]

/-- The characters without the blank ones at the end. -/
def trimEnd (cs : List Char) : List Char := cs.rdropWhile isBlank

/-- A text is trimmed at its start and then at its end. -/
theorem trim_eq (cs : List Char) : trim cs = trimEnd (cs.dropWhile isBlank) := rfl

/-- What is trimmed off at the end is blank. -/
theorem exists_eq_trimEnd_append (cs : List Char) :
    ∃ after, Blank after ∧ cs = trimEnd cs ++ after :=
  ⟨cs.rtakeWhile isBlank, fun _ => List.mem_rtakeWhile_imp,
    List.rdropWhile_append_rtakeWhile.symm⟩

/-- What is trimmed off at the start is blank. -/
theorem exists_eq_append_dropWhile (cs : List Char) :
    ∃ before, Blank before ∧ cs = before ++ cs.dropWhile isBlank :=
  ⟨cs.takeWhile isBlank, fun _ => List.mem_takeWhile_imp,
    List.takeWhile_append_dropWhile.symm⟩

/-- The fields of a text are those of the text trimmed at its end. -/
theorem fields_trimEnd (cs : List Char) : fields (trimEnd cs) = fields cs := by
  obtain ⟨after, hafter, hcs⟩ := exists_eq_trimEnd_append cs
  calc fields (trimEnd cs) = fields (trimEnd cs ++ after) := (fields_append_blank _ hafter).symm
    _ = fields cs := by rw [← hcs]

/-- The fields of a text are those of the trimmed text. -/
theorem fields_trim (cs : List Char) : fields (trim cs) = fields cs := by
  obtain ⟨before, hbefore, hcs⟩ := exists_eq_append_dropWhile cs
  calc fields (trim cs) = fields (cs.dropWhile isBlank) := fields_trimEnd _
    _ = fields (before ++ cs.dropWhile isBlank) := (fields_blank_append hbefore _).symm
    _ = fields cs := by rw [← hcs]

/-- A trimmed text holds the same fields. -/
theorem Spaced.trim {tokens : List (List Char)} {cs : List Char} (h : Spaced tokens cs) :
    Spaced tokens (Text.trim cs) := by
  rw [spaced_iff, fields_trim]
  exact h.fields_eq

/-- A text trimmed at its end holds the same fields. -/
theorem Spaced.trimEnd {tokens : List (List Char)} {cs : List Char} (h : Spaced tokens cs) :
    Spaced tokens (Text.trimEnd cs) := by
  rw [spaced_iff, fields_trimEnd]
  exact h.fields_eq

/-- Of a blank text nothing is left at the end. -/
theorem trimEnd_eq_nil_iff {cs : List Char} : trimEnd cs = [] ↔ Blank cs :=
  List.rdropWhile_eq_nil_iff

/-- Of a blank text nothing is left. -/
theorem trim_eq_nil_iff {cs : List Char} : trim cs = [] ↔ Blank cs := by
  constructor
  · intro h
    have hfields := fields_trim cs
    rw [h] at hfields
    cases spaced_iff.mpr hfields.symm with
    | blank hblank => exact hblank
  · intro h
    have hnone : cs.dropWhile isBlank = [] := List.dropWhile_eq_nil_iff.mpr h
    rw [trim_eq, hnone]
    rfl

/-- Blanks before a text are trimmed off. -/
theorem trim_blank_append {before : List Char} (h : Blank before) (cs : List Char) :
    trim (before ++ cs) = trim cs := by
  have hdrop : (before ++ cs).dropWhile isBlank = cs.dropWhile isBlank := by
    induction before with
    | nil => rfl
    | cons c before ih =>
      obtain ⟨hc, hbefore⟩ := List.forall_mem_cons.mp h
      rw [List.cons_append, List.dropWhile_cons, if_pos hc, ih hbefore]
  rw [trim_eq, hdrop, trim_eq]

/-- Trimming at the end stops at a character that is not blank. -/
theorem trimEnd_append_cons (start : List Char) {c : Char} (hc : isBlank c = false)
    (rest : List Char) : trimEnd (start ++ c :: rest) = start ++ c :: trimEnd rest := by
  induction rest using List.reverseRecOn with
  | nil =>
    have hstop : ¬ isBlank c = true := by
      rw [hc]
      exact Bool.false_ne_true
    exact List.rdropWhile_concat_neg _ _ c hstop
  | append_singleton rest b ih =>
    have hassoc : start ++ c :: (rest ++ [b]) = start ++ c :: rest ++ [b] := by simp
    rw [hassoc, trimEnd, trimEnd, List.rdropWhile_concat, List.rdropWhile_concat]
    split
    · exact ih
    · exact hassoc.symm

/-- A text that opens with a field is trimmed after it. -/
theorem trim_token_append {token : List Char} (h : IsToken token) (rest : List Char) :
    trim (token ++ rest) = token ++ trimEnd rest := by
  have hopen : (token ++ rest).dropWhile isBlank = token ++ rest := by
    cases token with
    | nil => exact absurd rfl h.ne_nil
    | cons c token =>
      have hc : isBlank c = false := h.solid c List.mem_cons_self
      rw [List.cons_append, List.dropWhile_cons, hc, if_neg Bool.false_ne_true]
  obtain ⟨start, c, rfl⟩ := (List.eq_nil_or_concat' token).resolve_left h.ne_nil
  have hc : isBlank c = false := h.solid c List.mem_concat_self
  rw [trim_eq, hopen, List.append_assoc, List.singleton_append, trimEnd_append_cons start hc,
    List.append_assoc, List.singleton_append]

/-- A text of one field is trimmed to it. -/
theorem Spaced.trim_eq {token cs : List Char} (h : Spaced [token] cs) : Text.trim cs = token := by
  cases h with
  | field hbefore htoken hrest hspaced =>
    cases hspaced with
    | blank hblank =>
      rw [trim_blank_append hbefore, trim_token_append htoken, trimEnd_eq_nil_iff.mpr hblank,
        List.append_nil]

/-- A trimmed text opens with its first field. -/
theorem Spaced.head?_trim {token : List Char} {tokens : List (List Char)} {cs : List Char}
    (h : Spaced (token :: tokens) cs) : (Text.trim cs).head? = token.head? := by
  cases h with
  | field hbefore htoken hrest hspaced =>
    rw [trim_blank_append hbefore, trim_token_append htoken, List.head?_append_of_ne_nil]
    exact htoken.ne_nil

end BackoffLM.Text
