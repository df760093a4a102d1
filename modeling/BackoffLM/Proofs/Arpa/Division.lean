import BackoffLM.Proofs.Arpa.Acceptance

/-!
# How a file that is read is divided

A file is `Divided` into the counts that it declares and the lines of its sections when its lines
are, but for blank ones, any preamble, the data marker, one count line for each order, the sections
one after another under their headers, and the end marker. Every file that is read with all of its
orders is so divided, each of its sections has as many lines as were declared, and its contents are
what the lines of the sections add, one by one (`exists_divided_of_ofBytes`). Each stage of the
reader is taken apart for that once: what it leaves comes from the lines that it took.
-/

namespace BackoffLM

namespace Numeral

/-- No digit is blank. -/
theorem not_isBlank_of_isDigit {c : Char} (h : c.isDigit = true) : Text.isBlank c = false := by
  have hrange : 48 ≤ c.toNat ∧ c.toNat ≤ 57 := by
    simpa [Char.isDigit, UInt32.le_iff_toNat_le] using h
  simp [Text.isBlank]
  omega

/-- A whole number that is read is a field by itself. -/
theorem isToken_of_readNat {limit n : Nat} {cs : List Char} (h : readNat limit cs = .ok n) :
    Text.IsToken cs := by
  have hsolid : ∀ {ds : List Char}, readDigits limit 0 ds = .ok n →
      ∀ c ∈ ds, Text.isBlank c = false :=
    fun hds c hc => not_isBlank_of_isDigit (isDigit_of_readDigits hds c hc)
  unfold readNat at h
  split at h
  · simp at h
  · simp at h
  · exact ⟨List.cons_ne_nil _ _, List.forall_mem_cons.mpr ⟨by decide, hsolid h⟩⟩
  · exact ⟨‹_›, hsolid h⟩

end Numeral

namespace Arpa

open Text (Spaced Line)

/-- The texts of lines; none for a line that is no text. -/
def texts (lines : List Line) : List (Option (List Char)) := lines.map Line.text

/-! ## Divided files -/

/-- The sections of the orders from `order` on, each under its header and up to the next line that
opens with a backslash, and the end marker after the last. -/
inductive Sections : (order : Nat) → (sections : List (List (List Char))) →
    List (Option (List Char)) → Prop
  | closing {order : Nat} {after : List (Option (List Char))} :
    Sections order [] (some endMarker :: after)
  | section {order : Nat} {s : List (List Char)} {sections : List (List (List Char))}
      {rest : List (Option (List Char))} :
    (∀ text ∈ s, text.head? ≠ some '\\') → Sections (order + 1) sections rest →
      Sections order (s :: sections) (some (header order) :: (s.map some ++ rest))

/-- The counts that a file declares and the lines of its sections, from order 1 on. -/
inductive Divided (bytes : List UInt8) : (declared : List Nat) →
    (sections : List (List (List Char))) → Prop
  | mk {preamble rest : List (Option (List Char))} {counts : List (List Char)} {declared : List Nat}
      {sections : List (List (List Char))} :
    texts (Text.numbered (Text.rawLines bytes)) =
        preamble ++ some dataMarker :: (counts.map some ++ rest) →
      some dataMarker ∉ preamble →
        List.Forall₂ (fun form text => form text) (countForms 1 declared) counts →
          Sections 1 sections rest → Divided bytes declared sections

/-! ## There is one division -/

/-- A list is cut in one way before the first element of some kind. -/
theorem cut_unique {α : Type} {p : α → Prop} {before before' rest rest' : List α}
    (hbefore : ∀ x ∈ before, ¬ p x) (hbefore' : ∀ x ∈ before', ¬ p x)
    (hrest : ∃ x ∈ rest.head?, p x) (hrest' : ∃ x ∈ rest'.head?, p x)
    (h : before ++ rest = before' ++ rest') : before = before' ∧ rest = rest' := by
  induction before generalizing before' with
  | nil =>
    cases before' with
    | nil => exact ⟨rfl, h⟩
    | cons y before' =>
      obtain ⟨x, hx, hp⟩ := hrest
      rw [← List.nil_append rest, h, List.cons_append, List.head?_cons, Option.mem_some_iff] at hx
      rw [← hx] at hp
      exact absurd hp (hbefore' y List.mem_cons_self)
  | cons y before ih =>
    cases before' with
    | nil =>
      obtain ⟨x, hx, hp⟩ := hrest'
      rw [← List.nil_append rest', ← h, List.cons_append, List.head?_cons,
        Option.mem_some_iff] at hx
      rw [← hx] at hp
      exact absurd hp (hbefore y List.mem_cons_self)
    | cons y' before' =>
      obtain ⟨hfirst, hmore⟩ := List.cons_eq_cons.mp h
      obtain ⟨rfl, hsame⟩ :=
        ih (List.forall_mem_cons.mp hbefore).2 (List.forall_mem_cons.mp hbefore').2 hmore
      exact ⟨by rw [hfirst], hsame⟩

/-- A line that opens with a backslash. -/
def Opening (line : Option (List Char)) : Prop := line.bind List.head? = some '\\'

/-- Lines are cut in one way where the first comes that opens with a backslash. -/
theorem cut_opening_unique {read read' : List (List Char)} {rest rest' : List (Option (List Char))}
    (hread : ∀ text ∈ read, text.head? ≠ some '\\')
    (hread' : ∀ text ∈ read', text.head? ≠ some '\\') (hrest : ∃ line ∈ rest.head?, Opening line)
    (hrest' : ∃ line ∈ rest'.head?, Opening line)
    (h : read.map some ++ rest = read'.map some ++ rest') : read = read' ∧ rest = rest' := by
  obtain ⟨hsame, hrest⟩ := cut_unique (List.forall_mem_map.mpr hread)
    (List.forall_mem_map.mpr hread') hrest hrest' h
  exact ⟨List.map_injective_iff.mpr (fun _ _ => Option.some.inj) hsame, hrest⟩

/-- A section, or the end of the file, opens with its header or marker. -/
theorem Sections.exists_opening {order : Nat} {sections : List (List (List Char))}
    {lines : List (Option (List Char))} (h : Sections order sections lines) :
    ∃ line ∈ lines.head?, Opening line := by
  cases h with
  | closing => exact ⟨some endMarker, rfl, rfl⟩
  | «section» _ _ => exact ⟨some (header order), rfl, rfl⟩

/-- The sections of a file are determined by its lines. -/
theorem Sections.unique {order : Nat} {sections sections' : List (List (List Char))}
    {lines : List (Option (List Char))} (h : Sections order sections lines)
    (h' : Sections order sections' lines) : sections = sections' := by
  induction h generalizing sections' with
  | @closing order after =>
    generalize hlines : some endMarker :: after = lines at h'
    cases h' with
    | closing => rfl
    | «section» _ _ =>
      obtain ⟨hmarker, -⟩ := List.cons_eq_cons.mp hlines
      exact absurd (Option.some.inj hmarker).symm (header_ne_endMarker order)
  | @«section» order s sections rest hs hsections ih =>
    generalize hlines : some (header order) :: (s.map some ++ rest) = lines at h'
    cases h' with
    | closing =>
      obtain ⟨hmarker, -⟩ := List.cons_eq_cons.mp hlines
      exact absurd (Option.some.inj hmarker) (header_ne_endMarker order)
    | «section» hs' hsections' =>
      obtain ⟨-, hlines⟩ := List.cons_eq_cons.mp hlines
      obtain ⟨rfl, rfl⟩ := cut_opening_unique hs hs' hsections.exists_opening
        hsections'.exists_opening hlines
      rw [ih hsections']

/-- A count line declares one count. -/
theorem CountLine.unique {order order' count count' : Nat} {l : List Char}
    (h : CountLine order count l) (h' : CountLine order' count' l) : count = count' := by
  obtain ⟨body, hbody, hread⟩ := h.exists_body
  obtain ⟨body', hbody', hread'⟩ := h'.exists_body
  rw [Option.some.inj (hbody.symm.trans hbody'), hread'] at hread
  exact (Prod.mk.inj (Except.ok.inj hread)).2.symm

/-- A count line does not open with a backslash. -/
theorem CountLine.head?_ne {order count : Nat} {l : List Char} (h : CountLine order count l) :
    l.head? ≠ some '\\' := by
  cases h with
  | @mk before _ _ _ _ hbefore =>
    cases before with
    | nil =>
      intro hopen
      have hword : 'n' = '\\' := Option.some.inj hopen
      exact absurd hword (by decide)
    | cons c before =>
      intro hopen
      have hblank := hbefore c List.mem_cons_self
      rw [show c = '\\' from Option.some.inj hopen] at hblank
      exact absurd hblank (by decide)

/-- What count lines declare is determined by them. -/
theorem countForms_unique {order : Nat} {declared declared' : List Nat} {counts : List (List Char)}
    (h : List.Forall₂ (fun form text => form text) (countForms order declared) counts)
    (h' : List.Forall₂ (fun form text => form text) (countForms order declared') counts) :
    declared = declared' := by
  induction declared generalizing order declared' counts with
  | nil =>
    cases h with
    | nil =>
      cases declared' with
      | nil => rfl
      | cons _ _ => cases h'
  | cons count declared ih =>
    cases h with
    | cons hline h =>
      cases declared' with
      | nil => cases h'
      | cons count' declared' =>
        cases h' with
        | cons hline' h' => rw [hline.unique hline', ih h h']

/-- No count line opens with a backslash. -/
theorem head?_ne_of_countForms {order : Nat} {declared : List Nat} {counts : List (List Char)}
    (h : List.Forall₂ (fun form text => form text) (countForms order declared) counts) :
    ∀ text ∈ counts, text.head? ≠ some '\\' := by
  induction declared generalizing order counts with
  | nil =>
    cases h with
    | nil => exact List.forall_mem_nil _
  | cons count declared ih =>
    cases h with
    | cons hline h => exact List.forall_mem_cons.mpr ⟨hline.head?_ne, ih h⟩

/-- A file is divided in one way. -/
theorem Divided.unique {bytes : List UInt8} {declared declared' : List Nat}
    {sections sections' : List (List (List Char))} (h : Divided bytes declared sections)
    (h' : Divided bytes declared' sections') : declared = declared' ∧ sections = sections' := by
  obtain ⟨hfile, hnone, hforms, hsections⟩ := h
  obtain ⟨hfile', hnone', hforms', hsections'⟩ := h'
  obtain ⟨-, hmarker⟩ := cut_unique (p := (· = some dataMarker))
    (fun line hline heq => hnone (heq ▸ hline)) (fun line hline heq => hnone' (heq ▸ hline))
    ⟨_, rfl, rfl⟩ ⟨_, rfl, rfl⟩ (hfile.symm.trans hfile')
  obtain ⟨-, hafter⟩ := List.cons_eq_cons.mp hmarker
  obtain ⟨rfl, rfl⟩ := cut_opening_unique (head?_ne_of_countForms hforms)
    (head?_ne_of_countForms hforms') hsections.exists_opening hsections'.exists_opening hafter
  exact ⟨countForms_unique hforms hforms', hsections.unique hsections'⟩

/-! ## The preamble and the counts -/

/-- A line whose text is read has that text. -/
theorem text_of_lineText {line : Line} {text : List Char} (h : lineText line = .ok text) :
    line.text = some text := by
  unfold lineText at h
  split at h
  · rename_i heq
    rw [heq, Except.ok.inj h]
  · simp at h

/-- What is left after the preamble is what follows the first data marker. -/
theorem exists_preamble_of_skipPreamble {last : Nat} {lines rest : List Line}
    (h : skipPreamble last lines = .ok rest) :
    ∃ preamble, texts lines = preamble ++ some dataMarker :: texts rest ∧
      some dataMarker ∉ preamble := by
  induction lines with
  | nil => simp [skipPreamble] at h
  | cons line lines ih =>
    rw [skipPreamble] at h
    obtain ⟨text, htext, h⟩ := bind_eq_ok.mp h
    have hline : texts (line :: lines) = some text :: texts lines := by
      rw [← text_of_lineText htext]
      rfl
    split at h
    · rename_i hmarker
      refine ⟨[], ?_, List.not_mem_nil⟩
      rw [hline, hmarker, ← Except.ok.inj h]
      rfl
    · rename_i hother
      obtain ⟨preamble, hpreamble, hnone⟩ := ih h
      refine ⟨some text :: preamble, by rw [hline, hpreamble]; rfl, ?_⟩
      rw [List.mem_cons, not_or]
      exact ⟨fun heq => hother (Option.some.inj heq).symm, hnone⟩

/-- A number that is read from a trimmed text stands in it by itself. -/
theorem spaced_of_readNat {limit n : Nat} {cs : List Char}
    (h : Numeral.readNat limit (Text.trim cs) = .ok n) : Spaced [Text.trim cs] cs := by
  have htoken : Text.fields (Text.trim cs ++ []) = Text.trim cs :: Text.fields [] :=
    Text.fields_token_append (Numeral.isToken_of_readNat h) rfl
  rw [List.append_nil] at htoken
  rw [Text.spaced_iff, ← Text.fields_trim, htoken]
  rfl

/-- What is read as a declared count is a count line. -/
theorem countLine_of_readCount {text body : List Char} {order count : Nat}
    (hbody : "ngram ".toList.isPrefixOf? text = some body)
    (h : readCount text body = .ok (order, count)) : CountLine order count text := by
  have htext := List.isPrefixOf?_eq_some_iff_append_eq.mp hbody
  unfold readCount at h
  dsimp only at h
  split at h
  · simp at h
  · rename_i sign countField hdrop
    obtain ⟨order', horder, h⟩ := bind_eq_ok.mp h
    obtain ⟨count', hcount, h⟩ := bind_eq_ok.mp h
    obtain ⟨rfl, rfl⟩ := Prod.mk.inj (Except.ok.inj h)
    -- The body is cut at the first equals sign.
    have hsign : sign = '=' := by
      have hfirst := List.head?_dropWhile_not (fun c => decide (c ≠ '=')) body
      rw [hdrop] at hfirst
      simpa using hfirst
    have hcut : body.takeWhile (· ≠ '=') ++ '=' :: countField = body :=
      calc body.takeWhile (· ≠ '=') ++ '=' :: countField
          = body.takeWhile (· ≠ '=') ++ body.dropWhile (· ≠ '=') := by rw [hdrop, hsign]
        _ = body := List.takeWhile_append_dropWhile
    rw [← htext, ← hcut]
    have hblank : Text.Blank [] := by decide
    exact .mk hblank (spaced_of_readNat (mapError_eq_ok.mp horder))
      (spaced_of_readNat (mapError_eq_ok.mp hcount)) (mapError_eq_ok.mp horder)
      (mapError_eq_ok.mp hcount)

/-- The counts are declared by the lines before the header of the unigrams. -/
theorem exists_counts_of_readCounts {last : Nat} {declared all : List Nat} {lines rest : List Line}
    (h : readCounts last declared lines = .ok (all, rest)) :
    ∃ more counts, all = declared ++ more ∧
      texts lines = counts.map some ++ some (header 1) :: texts rest ∧
      List.Forall₂ (fun form text => form text) (countForms (declared.length + 1) more) counts := by
  induction lines generalizing declared with
  | nil => simp [readCounts] at h
  | cons line lines ih =>
    rw [readCounts] at h
    obtain ⟨text, htext, h⟩ := bind_eq_ok.mp h
    have hline : texts (line :: lines) = some text :: texts lines := by
      rw [← text_of_lineText htext]
      rfl
    rw [hline]
    split at h
    · rename_i body hbody
      obtain ⟨⟨order, count⟩, hread, h⟩ := bind_eq_ok.mp h
      dsimp only at h
      split at h
      · rename_i horder
        obtain ⟨more, counts, rfl, hlines, hforms⟩ := ih h
        rw [List.length_append, List.length_singleton, ← horder] at hforms
        refine ⟨count :: more, text :: counts, by rw [List.append_assoc]; rfl, by rw [hlines]; rfl,
          ?_⟩
        rw [← horder]
        exact .cons (countLine_of_readCount hbody (mapError_eq_ok.mp hread)) hforms
      · simp at h
    · split at h
      · rename_i hheader
        split at h
        · simp at h
        · obtain ⟨rfl, rfl⟩ := Prod.mk.inj (Except.ok.inj h)
          exact ⟨[], [], (List.append_nil _).symm, by rw [hheader]; rfl, .nil⟩
      · simp at h

/-! ## Sections -/

/-- A section that passes the check has as many lines as were declared. -/
theorem seen_of_checkCount {σ : Type} {s : Section σ} {order declared : Nat}
    (h : s.checkCount order declared = .ok ()) : s.seen = declared := by
  unfold Section.checkCount at h
  split at h
  · assumption
  · simp at h

/-- A section is read up to the first line that opens with a backslash, and each of its lines is
added to the result. -/
theorem exists_texts_of_readSection {σ : Type} {add : σ → List Char → Except ArpaFault σ}
    {last : Nat} {result : σ} {seen : Nat} {lines : List Line} {s : Section σ}
    (h : readSection add last result seen lines = .ok s) :
    ∃ read : List (List Char), texts lines = read.map some ++ some s.header.2 :: texts s.rest ∧
      (∀ text ∈ read, text.head? ≠ some '\\') ∧ s.seen = seen + read.length ∧
      read.foldlM add result = .ok s.result := by
  induction lines generalizing result seen with
  | nil => simp [readSection] at h
  | cons line lines ih =>
    rw [readSection] at h
    obtain ⟨text, htext, h⟩ := bind_eq_ok.mp h
    have hline : texts (line :: lines) = some text :: texts lines := by
      rw [← text_of_lineText htext]
      rfl
    rw [hline]
    split at h
    · rw [← Except.ok.inj h]
      exact ⟨[], rfl, List.forall_mem_nil _, rfl, rfl⟩
    · rename_i hopen
      obtain ⟨next, hnext, h⟩ := bind_eq_ok.mp h
      obtain ⟨read, hlines, hread, hseen, hfold⟩ := ih h
      refine ⟨text :: read, by rw [hlines]; rfl, List.forall_mem_cons.mpr ⟨hopen, hread⟩, ?_, ?_⟩
      · rw [hseen, List.length_cons]
        omega
      · rw [List.foldlM_cons, mapError_eq_ok.mp hnext, ok_bind, hfold]

/-- The n-grams of a section are what its lines add over a vocabulary. -/
def Adds (v : Vocabulary) (order : Nat) (read : List (List Char)) (entries : Array Entry) : Prop :=
  ∃ withBackoff seen,
    read.foldlM (Ngrams.add v order withBackoff) ⟨#[], ∅⟩ = .ok ⟨entries, seen⟩

/-- Where all orders are kept, each section has as many lines as were declared, and its n-grams are
what these add. -/
theorem exists_sections_of_readHigher {v : Vocabulary} {keep last order : Nat} {declared : List Nat}
    {opening : Nat × List Char} {lines : List Line} {ngrams : List (Array Entry)}
    (hkeep : order + declared.length ≤ keep + 1)
    (h : readHigher v keep last order declared opening lines = .ok ngrams) :
    ∃ sections, Sections order sections (some opening.2 :: texts lines) ∧
      declared = sections.map List.length ∧ ngrams.length = sections.length ∧
      ∀ (k : Nat) (read : List (List Char)) (entries : Array Entry), sections[k]? = some read →
        ngrams[k]? = some entries → Adds v (order + k) read entries := by
  induction declared generalizing order opening lines ngrams with
  | nil =>
    rw [readHigher] at h
    split at h
    · rename_i hend
      rw [← Except.ok.inj h, hend]
      exact ⟨[], .closing, rfl, rfl, fun k read entries hk => by simp at hk⟩
    · simp at h
  | cons count declared ih =>
    rw [List.length_cons] at hkeep
    rw [readHigher] at h
    obtain ⟨-, h⟩ := ite_error_eq_ok.mp h
    obtain ⟨hheader, h⟩ := ite_error_eq_ok.mp h
    rw [if_pos (by omega)] at h
    obtain ⟨s, hs, h⟩ := bind_eq_ok.mp h
    obtain ⟨⟨⟩, hcheck, h⟩ := bind_eq_ok.mp h
    obtain ⟨higher, hhigher, h⟩ := bind_eq_ok.mp h
    obtain ⟨read, hlines, hread, hseen, hfold⟩ := exists_texts_of_readSection hs
    obtain ⟨sections, hsections, hdeclared, hlength, hadds⟩ := ih (by omega) hhigher
    have hcount := seen_of_checkCount hcheck
    refine ⟨read :: sections, ?_, ?_, ?_, fun k read' entries hk hk' => ?_⟩
    · rw [hlines, not_not.mp hheader]
      exact .section hread hsections
    · rw [List.map_cons, ← hdeclared, ← hcount, hseen, Nat.zero_add]
    · rw [← Except.ok.inj h, List.length_cons, List.length_cons, hlength]
    · rw [← Except.ok.inj h] at hk'
      cases k with
      | zero =>
        rw [← Option.some.inj hk, ← Option.some.inj hk']
        exact ⟨order < keep, s.result.seen, hfold⟩
      | succ k =>
        rw [← Nat.succ_add_eq_add_succ]
        exact hadds k read' entries hk hk'

/-! ## The whole file -/

/-- Every file that is read with all of its orders is divided into the counts that it declares and
its sections, which have as many lines, and its contents are what these add. -/
theorem exists_divided_of_ofBytes {bytes : List UInt8} {a : Arpa} (h : ofBytes bytes none = .ok a) :
    ∃ read sections, Divided bytes ((read :: sections).map List.length) (read :: sections) ∧
      (∃ withBackoff, read.foldlM (Lexicon.add withBackoff) Lexicon.initial =
        .ok ⟨a.vocabulary, a.unigrams, a.hasUnknown⟩) ∧
      a.ngrams.length = sections.length ∧
      ∀ (k : Nat) (read : List (List Char)) (entries : Array Entry), sections[k]? = some read →
        a.ngrams[k]? = some entries → Adds a.vocabulary (k + 2) read entries := by
  unfold ofBytes at h
  obtain ⟨afterData, hpreamble, h⟩ := bind_eq_ok.mp h
  obtain ⟨⟨declared, lines⟩, hcounts, h⟩ := bind_eq_ok.mp h
  have hne : declared ≠ [] := readCounts_ne_nil hcounts
  dsimp only at h
  obtain ⟨-, h⟩ := ite_error_eq_ok.mp h
  obtain ⟨s, hs, h⟩ := bind_eq_ok.mp h
  obtain ⟨⟨⟩, hcheck, h⟩ := bind_eq_ok.mp h
  obtain ⟨ngrams, hhigher, h⟩ := bind_eq_ok.mp h
  obtain ⟨preamble, hdata, hnone⟩ := exists_preamble_of_skipPreamble hpreamble
  obtain ⟨more, counts, hmore, hafter, hforms⟩ := exists_counts_of_readCounts hcounts
  obtain ⟨read, hlines, hread, hseen, hfold⟩ := exists_texts_of_readSection hs
  have hkeep : 2 + declared.tail.length ≤ keptOrder declared.length none + 1 := by
    have hpos := List.length_pos_iff.mpr hne
    rw [List.length_tail, show keptOrder declared.length none = declared.length from rfl]
    omega
  obtain ⟨sections, hsections, hdeclared, hlength, hadds⟩ :=
    exists_sections_of_readHigher hkeep hhigher
  have hcount := seen_of_checkCount hcheck
  have hall : (read :: sections).map List.length = declared := by
    rw [List.map_cons, ← hdeclared, ← Nat.zero_add read.length, ← hseen, hcount]
    cases declared with
    | nil => exact absurd rfl hne
    | cons first others => rfl
  have hfile : texts (Text.numbered (Text.rawLines bytes)) =
      preamble ++ some dataMarker :: (counts.map some ++
        some (header 1) :: (read.map some ++ some s.header.2 :: texts s.rest)) := by
    rw [hdata, hafter, hlines]
  have hforms : List.Forall₂ (fun form text => form text) (countForms 1 declared) counts := by
    rw [hmore]
    exact hforms
  have hdivided : Divided bytes declared (read :: sections) :=
    .mk hfile hnone hforms (.section hread hsections)
  rw [← hall] at hdivided
  rw [← Except.ok.inj h]
  refine ⟨read, sections, hdivided, ⟨_, hfold⟩, hlength, fun k read entries hk hk' => ?_⟩
  rw [Nat.add_comm k 2]
  exact hadds k read entries hk hk'

end Arpa

end BackoffLM
