import BackoffLM.SentenceOptions
import BackoffLM.Proofs.Text.Lowercase
import BackoffLM.Proofs.Text.Split

/-!
# Preparing a sentence twice

A word is `Settled` when preparing it gives that word alone. Words that are settled are left as they
are (`normalize_of_settled`), and preparation gives settled words (`settled_of_mem_normalize`)
provided that lowercasing makes no occurrence of the delimiter (`MakesNoDelimiter`): a token is
split before it is lowercased, so an occurrence that lowercasing makes is found only the next time.
The markers are added to settled words and are settled themselves, except one that is the delimiter,
which vanishes and is added again. So preparing a sentence a second time changes nothing exactly
when lowercasing makes no delimiter (`sentenceWords_idempotent_iff`).
-/

namespace BackoffLM.SentenceOptions

open Text

variable {o : SentenceOptions} {word : String} {words tokens : List String}

/-- The markers of the beginning and the end. -/
def IsMarker (word : String) : Prop := word = beginToken ∨ word = endToken

/-- The delimiter stands in a word. -/
def Holds (o : SentenceOptions) (word : String) : Prop := o.delimiter.toList <:+: word.toList
  deriving Decidable

/-- The delimiter is not empty when tokens are split at it. -/
def Delimits (o : SentenceOptions) : Prop := o.splitNamedEntities = true → o.delimiter ≠ ""

theorem Delimits.toList_ne_nil (hdelim : o.Delimits) (hsplit : o.splitNamedEntities = true) :
    o.delimiter.toList ≠ [] :=
  fun hnil => hdelim hsplit (String.toList_eq_nil_iff.mp hnil)

/-! ## Lowercasing words -/

/-- Lowercasing leaves every character of a word as it is. -/
def Lowered (word : String) : Prop := ∀ c ∈ word.toList, Lower c

theorem IsMarker.lowered (h : IsMarker word) : Lowered word := by
  have hbegin : beginToken.toList.all isLower = true := by decide +kernel
  have hend : endToken.toList.all isLower = true := by decide +kernel
  rcases h with rfl | rfl
  · exact fun c hc => lower_of_isLower (List.all_eq_true.mp hbegin c hc)
  · exact fun c hc => lower_of_isLower (List.all_eq_true.mp hend c hc)

/-- Lowercasing would change no marker, so sparing them changes nothing. -/
theorem toList_lowerWord (word : String) :
    (lowerWord word).toList = Text.lowercase word.toList := by
  rw [lowerWord]
  split
  · next hmarker => exact (lowercase_of_lower (IsMarker.lowered hmarker)).symm
  · exact String.toList_ofList

theorem lowered_lowerWord (word : String) : Lowered (lowerWord word) := by
  rw [Lowered, toList_lowerWord]
  exact fun c => lower_of_mem_lowercase

theorem Lowered.lowerWord_eq (h : Lowered word) : lowerWord word = word := by
  rw [← String.toList_inj, toList_lowerWord, lowercase_of_lower h]

/-- The word that a part of a token becomes. -/
def lowerPart (o : SentenceOptions) (part : String) : String :=
  if o.lowercase then lowerWord part else part

theorem Lowered.lowerPart_eq (h : Lowered word) (o : SentenceOptions) :
    o.lowerPart word = word := by
  rw [lowerPart, h.lowerWord_eq, ite_self]

theorem lowered_lowerPart (hlower : o.lowercase = true) (part : String) :
    Lowered (o.lowerPart part) := by
  rw [lowerPart, if_pos hlower]
  exact lowered_lowerWord part

theorem lowerPart_lowerPart (o : SentenceOptions) (part : String) :
    o.lowerPart (o.lowerPart part) = o.lowerPart part := by
  by_cases hlower : o.lowercase = true
  · exact (lowered_lowerPart hlower part).lowerPart_eq o
  · rw [lowerPart, if_neg hlower]

theorem toList_lowerPart (hlower : o.lowercase = true) (part : String) :
    (o.lowerPart part).toList = Text.lowercase part.toList := by
  rw [lowerPart, if_pos hlower, toList_lowerWord]

/-! ## Splitting tokens -/

theorem splitToken_of_not_split (hsplit : o.splitNamedEntities ≠ true) (token : String) :
    o.splitToken token = [token] :=
  if_neg hsplit

theorem splitToken_of_split (hsplit : o.splitNamedEntities = true) (token : String) :
    o.splitToken token = (parts o.delimiter.toList token.toList).map String.ofList :=
  if_pos hsplit

theorem mem_splitToken (hsplit : o.splitNamedEntities = true) {token part : String} :
    part ∈ o.splitToken token ↔ part.toList ∈ parts o.delimiter.toList token.toList := by
  rw [splitToken_of_split hsplit, List.mem_map]
  constructor
  · rintro ⟨chars, hchars, rfl⟩
    rwa [String.toList_ofList]
  · exact fun hpart => ⟨part.toList, hpart, String.ofList_toList⟩

/-- A word that is not empty and does not hold the delimiter is its only part. -/
theorem splitToken_of_not_holds (hdelim : o.Delimits) (hsplit : o.splitNamedEntities = true)
    (hne : word ≠ "") (h : ¬ o.Holds word) : o.splitToken word = [word] := by
  have htext : word.toList ≠ [] := fun hnil => hne (String.toList_eq_nil_iff.mp hnil)
  rw [splitToken_of_split hsplit, parts_of_absent (hdelim.toList_ne_nil hsplit) htext h,
    List.map_singleton, String.ofList_toList]

/-- The parts of a lowered token are lowered. -/
theorem Lowered.of_mem_splitToken (hdelim : o.Delimits) {token : String} (htoken : Lowered token)
    (h : word ∈ o.splitToken token) : Lowered word := by
  by_cases hsplit : o.splitNamedEntities = true
  · intro c hc
    have hpart := (mem_splitToken hsplit).mp h
    exact htoken c (mem_of_mem_parts (hdelim.toList_ne_nil hsplit) hpart hc)
  · rw [splitToken_of_not_split hsplit, List.mem_singleton] at h
    rwa [h]

/-! ## Preparing words -/

theorem normalize_eq (o : SentenceOptions) (tokens : List String) :
    o.normalize tokens = (tokens.flatMap o.splitToken).map o.lowerPart :=
  rfl

theorem normalize_append (o : SentenceOptions) (front back : List String) :
    o.normalize (front ++ back) = o.normalize front ++ o.normalize back := by
  rw [normalize_eq, List.flatMap_append, List.map_append, ← normalize_eq, ← normalize_eq]

theorem mem_normalize :
    word ∈ o.normalize tokens ↔
      ∃ token ∈ tokens, ∃ part ∈ o.splitToken token, o.lowerPart part = word := by
  simp only [normalize_eq, List.mem_map, List.mem_flatMap]
  constructor
  · rintro ⟨part, ⟨token, htoken, hpart⟩, hword⟩
    exact ⟨token, htoken, part, hpart, hword⟩
  · rintro ⟨token, htoken, part, hpart, hword⟩
    exact ⟨part, ⟨token, htoken, hpart⟩, hword⟩

/-- Preparing the word gives that word alone. -/
def Settled (o : SentenceOptions) (word : String) : Prop :=
  o.splitToken word = [word] ∧ o.lowerPart word = word

/-- Settled words are left as they are. -/
theorem normalize_of_settled (h : ∀ word ∈ words, o.Settled word) : o.normalize words = words := by
  induction words with
  | nil => rfl
  | cons word words ih =>
    obtain ⟨⟨hsplit, hlower⟩, hwords⟩ := List.forall_mem_cons.mp h
    rw [← List.singleton_append, normalize_append, ih hwords, normalize_eq, List.flatMap_singleton,
      hsplit, List.map_singleton, hlower]

/-- Lowercasing makes no occurrence of the delimiter, where tokens are split and lowercased. -/
def MakesNoDelimiter (o : SentenceOptions) : Prop :=
  o.splitNamedEntities = true → o.lowercase = true →
    ∀ text, o.delimiter.toList <:+: Text.lowercase text → o.delimiter.toList <:+: text

/-- Lowercasing makes no occurrence of a delimiter of characters that are not made. -/
theorem makesNoDelimiter_of_unmade (h : o.delimiter.toList.all unmade = true) :
    o.MakesNoDelimiter :=
  fun _ _ _ => infix_of_infix_lowercase (List.all_eq_true.mp h)

/-- A word of a token is not empty, and holds the delimiter only if lowercasing made it. -/
theorem settled_lowerPart (hdelim : o.Delimits) (hmakes : o.MakesNoDelimiter) {token part : String}
    (h : part ∈ o.splitToken token) : o.Settled (o.lowerPart part) := by
  refine ⟨?_, lowerPart_lowerPart o part⟩
  by_cases hsplit : o.splitNamedEntities = true
  · have hpart := (mem_splitToken hsplit).mp h
    have hne : part.toList ≠ [] := ne_nil_of_mem_parts hpart
    have hnot : ¬ o.Holds part := absent_of_mem_parts (hdelim.toList_ne_nil hsplit) hpart
    by_cases hlower : o.lowercase = true
    · refine splitToken_of_not_holds hdelim hsplit (fun hempty => ?_) fun hholds => hnot ?_
      · have hnil := congrArg String.toList hempty
        rw [toList_lowerPart hlower] at hnil
        exact lowercase_ne_nil hne hnil
      · rw [Holds, toList_lowerPart hlower] at hholds
        exact hmakes hsplit hlower part.toList hholds
    · have hsame : o.lowerPart part = part := if_neg hlower
      rw [hsame]
      exact splitToken_of_not_holds hdelim hsplit
        (fun hempty => hne (String.toList_eq_nil_iff.mpr hempty)) hnot
  · exact splitToken_of_not_split hsplit _

/-- Preparation gives settled words. -/
theorem settled_of_mem_normalize (hdelim : o.Delimits) (hmakes : o.MakesNoDelimiter)
    (h : word ∈ o.normalize tokens) : o.Settled word := by
  obtain ⟨token, -, part, hpart, rfl⟩ := mem_normalize.mp h
  exact settled_lowerPart hdelim hmakes hpart

/-- The words of lowered tokens hold no delimiter. -/
theorem not_holds_of_mem_normalize (hdelim : o.Delimits) (hsplit : o.splitNamedEntities = true)
    (htokens : ∀ token ∈ tokens, Lowered token) (h : word ∈ o.normalize tokens) :
    ¬ o.Holds word := by
  obtain ⟨token, htoken, part, hpart, rfl⟩ := mem_normalize.mp h
  rw [((htokens token htoken).of_mem_splitToken hdelim hpart).lowerPart_eq]
  exact absent_of_mem_parts (hdelim.toList_ne_nil hsplit) ((mem_splitToken hsplit).mp hpart)

/-! ## Markers -/

/-- A marker that does not hold the delimiter is settled. -/
theorem IsMarker.settled (hdelim : o.Delimits) {marker : String} (hmarker : IsMarker marker)
    (h : o.splitNamedEntities = true → ¬ o.Holds marker) : o.Settled marker := by
  refine ⟨?_, hmarker.lowered.lowerPart_eq o⟩
  by_cases hsplit : o.splitNamedEntities = true
  · refine splitToken_of_not_holds hdelim hsplit ?_ (h hsplit)
    rcases hmarker with rfl | rfl
    · decide
    · decide
  · exact splitToken_of_not_split hsplit marker

/-- The delimiter itself has no parts. -/
theorem normalize_delimiter (hdelim : o.Delimits) (hsplit : o.splitNamedEntities = true) :
    o.normalize [o.delimiter] = [] := by
  rw [normalize_eq, List.flatMap_singleton, splitToken_of_split hsplit,
    parts_self (hdelim.toList_ne_nil hsplit)]
  rfl

/-- Words with the marker of the beginning. -/
def opened (words : List String) : List String :=
  if words.head? = some beginToken then words else beginToken :: words

/-- Words with the marker of the end. -/
def closed (words : List String) : List String :=
  if words.getLast? = some endToken then words else words ++ [endToken]

theorem addMarkers_eq (words : List String) : addMarkers words = closed (opened words) :=
  rfl

theorem opened_cons (words : List String) : opened (beginToken :: words) = beginToken :: words :=
  if_pos rfl

theorem closed_concat (words : List String) : closed (words ++ [endToken]) = words ++ [endToken] :=
  if_pos List.getLast?_concat

theorem opened_of_not_mem (h : beginToken ∉ words) : opened words = beginToken :: words :=
  if_neg fun hhead => h (List.mem_of_head? hhead)

theorem closed_of_not_mem (h : endToken ∉ words) : closed words = words ++ [endToken] :=
  if_neg fun hlast => h (List.mem_of_getLast? hlast)

/-- Opened words begin with their marker. -/
theorem exists_opened_eq (words : List String) : ∃ rest, opened words = beginToken :: rest := by
  rw [opened]
  split
  · next hhead => exact ⟨words.tail, List.eq_cons_of_mem_head? hhead⟩
  · exact ⟨words, rfl⟩

theorem opened_opened (words : List String) : opened (opened words) = opened words := by
  obtain ⟨rest, heq⟩ := exists_opened_eq words
  rw [heq, opened_cons]

/-- Closed words are the words, with or without the marker of the end after them. -/
theorem closed_cases (words : List String) :
    closed words = words ∨ closed words = words ++ [endToken] := by
  rw [closed]
  split
  · exact .inl rfl
  · exact .inr rfl

theorem closed_closed (words : List String) : closed (closed words) = closed words := by
  obtain heq | heq := closed_cases words
  · rw [heq, heq]
  · rw [heq, closed_concat]

/-- Adding the markers a second time changes nothing. -/
theorem addMarkers_addMarkers (words : List String) :
    addMarkers (addMarkers words) = addMarkers words := by
  obtain ⟨rest, hopened⟩ := exists_opened_eq words
  have hbegin : opened (closed (opened words)) = closed (opened words) := by
    obtain heq | heq := closed_cases (opened words)
    · rw [heq, opened_opened]
    · rw [heq, hopened, List.cons_append, opened_cons]
  rw [addMarkers_eq, addMarkers_eq, hbegin, closed_closed]

theorem sublist_opened (words : List String) :
    words.Sublist (opened words) ∧ (opened words).Sublist (beginToken :: words) := by
  rw [opened]
  split
  · exact ⟨.refl words, List.sublist_cons_self beginToken words⟩
  · exact ⟨List.sublist_cons_self beginToken words, .refl _⟩

/-- Each marker is added around the words or not. -/
theorem sublist_addMarkers (words : List String) :
    words.Sublist (addMarkers words) ∧
      (addMarkers words).Sublist (beginToken :: words ++ [endToken]) := by
  have hopened := sublist_opened words
  rw [addMarkers_eq]
  obtain heq | heq := closed_cases (opened words)
  · rw [heq]
    exact ⟨hopened.1, hopened.2.trans (List.sublist_append_left _ _)⟩
  · rw [heq]
    exact ⟨hopened.1.trans (List.sublist_append_left _ _), hopened.2.append_right [endToken]⟩

theorem mem_addMarkers (h : word ∈ addMarkers words) : word ∈ words ∨ IsMarker word := by
  have hmem := (sublist_addMarkers words).2.mem h
  rw [List.cons_append, List.mem_cons, List.mem_append, List.mem_singleton] at hmem
  rcases hmem with hbegin | hword | hend
  · exact .inr (.inl hbegin)
  · exact .inl hword
  · exact .inr (.inr hend)

/-- No word is added twice. -/
theorem count_addMarkers_le (word : String) (words : List String) :
    (addMarkers words).count word ≤ words.count word + 1 := by
  have hmarkers : beginToken ≠ endToken := by decide
  refine ((sublist_addMarkers words).2.count_le word).trans ?_
  rw [List.count_append, List.count_cons, List.count_singleton, Nat.add_assoc]
  refine Nat.add_le_add_left ?_ _
  by_cases hbegin : beginToken = word
  · rw [if_pos (beq_iff_eq.mpr hbegin), if_neg]
    exact fun hend => hmarkers (hbegin.trans (beq_iff_eq.mp hend).symm)
  · rw [if_neg (fun h => hbegin (beq_iff_eq.mp h)), Nat.zero_add]
    split
    · exact Nat.le_refl 1
    · exact Nat.zero_le 1

/-! ## Sentences -/

theorem sentenceWords_of_markers (hadd : o.markers = true) (tokens : List String) :
    o.sentenceWords tokens = addMarkers (o.normalize tokens) :=
  if_pos hadd

theorem sentenceWords_of_no_markers (hadd : o.markers ≠ true) (tokens : List String) :
    o.sentenceWords tokens = o.normalize tokens :=
  if_neg hadd

/-- Where both are used, the delimiter stands in no marker, unless it is one. -/
def SparesMarkers (o : SentenceOptions) : Prop :=
  o.splitNamedEntities = true → o.markers = true →
    ∀ marker, IsMarker marker → o.Holds marker → o.delimiter = marker

/-- The marker of the beginning, where it vanishes, is added again. -/
theorem addMarkers_normalize_of_begin (hwords : ∀ word ∈ words, o.Settled word)
    (hnot : beginToken ∉ words) (hbegin : o.normalize [beginToken] = [])
    (hend : o.Settled endToken) :
    addMarkers (o.normalize (addMarkers words)) = addMarkers words := by
  rw [addMarkers_eq words, opened_of_not_mem hnot]
  obtain heq | heq := closed_cases (beginToken :: words)
  · rw [heq, ← List.singleton_append, normalize_append, hbegin, normalize_of_settled hwords,
      List.nil_append, addMarkers_eq, opened_of_not_mem hnot, heq, List.singleton_append]
  · have hwords' : ∀ word ∈ words ++ [endToken], o.Settled word :=
      List.forall_mem_append.mpr ⟨hwords, List.forall_mem_singleton.mpr hend⟩
    have hnot' : beginToken ∉ words ++ [endToken] := by
      have hmarkers : beginToken ≠ endToken := by decide
      rw [List.mem_append, List.mem_singleton]
      exact fun hmem => hmem.elim hnot hmarkers
    rw [heq, List.cons_append, ← List.singleton_append, normalize_append, hbegin,
      normalize_of_settled hwords', List.nil_append, addMarkers_eq, opened_of_not_mem hnot',
      ← List.cons_append, closed_concat, List.singleton_append, List.cons_append]

/-- The marker of the end, where it vanishes, is added again. -/
theorem addMarkers_normalize_of_end (hwords : ∀ word ∈ words, o.Settled word)
    (hnot : endToken ∉ words) (hend : o.normalize [endToken] = [])
    (hbegin : o.Settled beginToken) :
    addMarkers (o.normalize (addMarkers words)) = addMarkers words := by
  have hmem : ∀ word ∈ opened words, word = beginToken ∨ word ∈ words := fun word hword =>
    List.mem_cons.mp ((sublist_opened words).2.mem hword)
  have hopened : ∀ word ∈ opened words, o.Settled word := by
    intro word hword
    rcases hmem word hword with rfl | hword
    · exact hbegin
    · exact hwords word hword
  have hclosed : closed (opened words) = opened words ++ [endToken] := by
    refine closed_of_not_mem fun hword => (hmem endToken hword).elim ?_ hnot
    decide
  rw [addMarkers_eq words, hclosed, normalize_append, hend, List.append_nil,
    normalize_of_settled hopened, addMarkers_eq, opened_opened, hclosed]

/-- A marker that is the delimiter vanishes and is added again; another one is settled. -/
theorem addMarkers_normalize_addMarkers (hdelim : o.Delimits) (hadd : o.markers = true)
    (hspares : o.SparesMarkers) (hwords : ∀ word ∈ words, o.Settled word) :
    addMarkers (o.normalize (addMarkers words)) = addMarkers words := by
  have hmarkers : beginToken ≠ endToken := by decide
  have hsettled : ∀ {marker}, IsMarker marker →
      (o.splitNamedEntities = true → o.delimiter ≠ marker) → o.Settled marker :=
    fun hmarker hne => hmarker.settled hdelim fun hsplit hholds =>
      hne hsplit (hspares hsplit hadd _ hmarker hholds)
  have hnot : o.splitNamedEntities = true → o.delimiter ∉ words := by
    intro hsplit hmem
    have hsame := normalize_of_settled (List.forall_mem_singleton.mpr (hwords _ hmem))
    rw [normalize_delimiter hdelim hsplit] at hsame
    exact List.cons_ne_nil _ _ hsame.symm
  by_cases hvanish : o.splitNamedEntities = true ∧ IsMarker o.delimiter
  · obtain ⟨hsplit, hbegin | hend⟩ := hvanish
    · exact addMarkers_normalize_of_begin hwords (hbegin ▸ hnot hsplit)
        (hbegin ▸ normalize_delimiter hdelim hsplit)
        (hsettled (.inr rfl) fun _ heq => hmarkers (hbegin.symm.trans heq))
    · exact addMarkers_normalize_of_end hwords (hend ▸ hnot hsplit)
        (hend ▸ normalize_delimiter hdelim hsplit)
        (hsettled (.inl rfl) fun _ heq => hmarkers (heq.symm.trans hend))
  · have hall : ∀ word ∈ addMarkers words, o.Settled word := by
      intro word hmem
      refine (mem_addMarkers hmem).elim (hwords word) fun hmarker => hsettled hmarker ?_
      exact fun hsplit heq => hvanish ⟨hsplit, heq ▸ hmarker⟩
    rw [normalize_of_settled hall, addMarkers_addMarkers]

/-- Preparing a prepared sentence changes nothing where lowercasing makes no delimiter. -/
theorem sentenceWords_sentenceWords (hdelim : o.Delimits) (hspares : o.SparesMarkers)
    (hmakes : o.MakesNoDelimiter) (tokens : List String) :
    o.sentenceWords (o.sentenceWords tokens) = o.sentenceWords tokens := by
  have hwords : ∀ word ∈ o.normalize tokens, o.Settled word := fun _ =>
    settled_of_mem_normalize hdelim hmakes
  by_cases hadd : o.markers = true
  · simp only [sentenceWords_of_markers hadd]
    exact addMarkers_normalize_addMarkers hdelim hadd hspares hwords
  · simp only [sentenceWords_of_no_markers hadd]
    exact normalize_of_settled hwords

/-- The words of a lowercased sentence are lowered. -/
theorem lowered_of_mem_sentenceWords (hlower : o.lowercase = true)
    (h : word ∈ o.sentenceWords tokens) : Lowered word := by
  have hnormal : ∀ word ∈ o.normalize tokens, Lowered word := by
    intro word hword
    obtain ⟨token, -, part, -, rfl⟩ := mem_normalize.mp hword
    exact lowered_lowerPart hlower part
  by_cases hadd : o.markers = true
  · rw [sentenceWords_of_markers hadd] at h
    exact (mem_addMarkers h).elim (hnormal word) IsMarker.lowered
  · rw [sentenceWords_of_no_markers hadd] at h
    exact hnormal word h

/-- A sentence has its words, and each at most once more. -/
theorem count_sentenceWords (o : SentenceOptions) (word : String) (tokens : List String) :
    (o.normalize tokens).count word ≤ (o.sentenceWords tokens).count word ∧
      (o.sentenceWords tokens).count word ≤ (o.normalize tokens).count word + 1 := by
  by_cases hadd : o.markers = true
  · rw [sentenceWords_of_markers hadd]
    exact ⟨(sublist_addMarkers _).1.count_le word, count_addMarkers_le word _⟩
  · rw [sentenceWords_of_no_markers hadd]
    exact ⟨Nat.le_refl _, Nat.le_succ _⟩

/-- Where lowercasing makes a delimiter, a sentence with that word twice changes when it is prepared
again: the word is split, and a marker is added once only. -/
theorem makesNoDelimiter_of_idempotent (hdelim : o.Delimits)
    (h : ∀ tokens, o.sentenceWords (o.sentenceWords tokens) = o.sentenceWords tokens) :
    o.MakesNoDelimiter := by
  intro hsplit hlower text hmade
  by_contra hnot
  have hdelimiter := hdelim.toList_ne_nil hsplit
  have hne : text ≠ [] := by
    rintro rfl
    exact hdelimiter (List.infix_nil.mp hmade)
  let token := String.ofList text
  let word := o.lowerPart token
  have hword : o.Holds word := by
    rw [Holds, toList_lowerPart hlower, String.toList_ofList]
    exact hmade
  have hnormal : o.normalize [token] = [word] := by
    rw [normalize_eq, List.flatMap_singleton, splitToken_of_split hsplit, String.toList_ofList,
      parts_of_absent hdelimiter hne hnot]
    rfl
  have htwice : (o.normalize [token, token]).count word = 2 := by
    rw [← List.singleton_append, normalize_append, hnormal, List.count_append,
      List.count_singleton_self]
  have hnever : (o.normalize (o.sentenceWords [token, token])).count word = 0 := by
    refine List.count_eq_zero.mpr fun hmem => ?_
    exact not_holds_of_mem_normalize hdelim hsplit
      (fun _ => lowered_of_mem_sentenceWords hlower) hmem hword
  have hfirst := (count_sentenceWords o word [token, token]).1
  have hagain := (count_sentenceWords o word (o.sentenceWords [token, token])).2
  rw [h] at hagain
  omega

/-- Markers around tokens stay, and no others are added, if the delimiter does not stand in them. -/
theorem sentenceWords_marked (hdelim : o.Delimits) (hadd : o.markers = true)
    (hnot : o.splitNamedEntities = true → ∀ marker, IsMarker marker → ¬ o.Holds marker)
    (tokens : List String) :
    o.sentenceWords (beginToken :: tokens ++ [endToken]) =
      beginToken :: o.normalize tokens ++ [endToken] := by
  have hkeep : ∀ {marker}, IsMarker marker → o.normalize [marker] = [marker] := fun hmarker =>
    normalize_of_settled (List.forall_mem_singleton.mpr
      (hmarker.settled hdelim fun hsplit => hnot hsplit _ hmarker))
  rw [sentenceWords_of_markers hadd, normalize_append, ← List.singleton_append, normalize_append,
    hkeep (.inl rfl), hkeep (.inr rfl), addMarkers_eq, List.singleton_append, List.cons_append,
    opened_cons, ← List.cons_append, closed_concat]

/-- Preparing sentences, with a delimiter that stands in no marker without being one: a second
preparation changes no sentence exactly when lowercasing makes no delimiter. Unless the delimiter is
a marker, markers around a sentence are neither split nor changed nor added again. -/
theorem sentenceWords_idempotent_iff (o : SentenceOptions) (hdelim : o.Delimits)
    (hspares : o.SparesMarkers) :
    ((∀ tokens, o.sentenceWords (o.sentenceWords tokens) = o.sentenceWords tokens) ↔
      o.MakesNoDelimiter) ∧
    (o.markers = true → ¬ (o.splitNamedEntities = true ∧ IsMarker o.delimiter) →
      ∀ tokens, o.sentenceWords (beginToken :: tokens ++ [endToken]) =
        beginToken :: o.normalize tokens ++ [endToken]) := by
  refine ⟨⟨makesNoDelimiter_of_idempotent hdelim, sentenceWords_sentenceWords hdelim hspares⟩, ?_⟩
  intro hadd hmarker
  refine sentenceWords_marked hdelim hadd fun hsplit marker hmark hholds => hmarker ⟨hsplit, ?_⟩
  exact hspares hsplit hadd marker hmark hholds ▸ hmark

/-- The delimiter `_`, with every step of preparation used: no sentence changes the second time. -/
theorem sentenceWords_idempotent_iff_underscore :
    let o : SentenceOptions := ⟨true, true, "_", true⟩
    ∀ tokens, o.sentenceWords (o.sentenceWords tokens) = o.sentenceWords tokens := by
  intro o
  refine (sentenceWords_idempotent_iff o (fun _ => by decide) ?_).1.mpr ?_
  · rintro - - marker (rfl | rfl) hholds
    · exact absurd hholds (by decide)
    · exact absurd hholds (by decide)
  · exact makesNoDelimiter_of_unmade (by decide +kernel)

/-- The delimiter `a` is not found in `A`, but in its lower case. -/
theorem sentenceWords_capital_delimiter :
    let o : SentenceOptions := ⟨true, true, "a", true⟩
    o.Delimits ∧ o.sentenceWords ["A"] = ["<s>", "a", "</s>"] ∧
      o.sentenceWords (o.sentenceWords ["A"]) ≠ o.sentenceWords ["A"] := by
  refine ⟨fun _ => by decide, ?_, ?_⟩
  · decide +kernel
  · decide +kernel

end BackoffLM.SentenceOptions
