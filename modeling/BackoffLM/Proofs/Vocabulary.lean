import BackoffLM.Vocabulary
import Mathlib.Data.List.Nodup

/-!
# Words and their numbers

A vocabulary that is made by adding words gives each word the number of its last place
(`ByLastPlace`), and no other text has a number. When no word was added twice, the last place is the
only one (`Numbered`).
-/

namespace BackoffLM.Vocabulary

/-- The number of every word is its place, and every word has one. -/
def Numbered (v : Vocabulary) : Prop :=
  ∀ (word : String) (id : Nat), v.ids[word]? = some id ↔ v.words[id]? = some word

/-- The number of every word is its last place, and every word has one. -/
structure ByLastPlace (v : Vocabulary) : Prop where
  sound : ∀ {word : String} {id : WordId}, v.ids[word]? = some id → v.words[id]? = some word
  last : ∀ {word : String} {place : Nat}, v.words[place]? = some word →
    ∃ id, v.ids[word]? = some id ∧ place ≤ id

/-- A list of words is numbered as it stands. -/
theorem words_ofList (words : List String) : (ofList words).words = words.toArray := by
  have hfold : ∀ v : Vocabulary,
      (words.foldl Vocabulary.push v).words = v.words ++ words.toArray := by
    induction words with
    | nil => exact fun v => by simp
    | cons word words ih =>
      intro v
      rw [List.foldl_cons, ih (v.push word), push]
      simp
  rw [ofList, hfold empty, empty]
  simp

/-! ## Adding words -/

/-- There are no words at first. -/
theorem byLastPlace_empty : empty.ByLastPlace where
  sound h := by simp [empty] at h
  last h := by simp [empty] at h

/-- The number of a word that is added is the next, and other words keep theirs. -/
theorem getElem?_ids_push (v : Vocabulary) (word w : String) :
    (v.push word).ids[w]? = if word = w then some v.words.size else v.ids[w]? := by
  rw [push, Std.HashMap.getElem?_insert]
  simp only [beq_iff_eq]

/-- A word that is added has the next place, and other words keep theirs. -/
theorem getElem?_words_push (v : Vocabulary) (word : String) (place : Nat) :
    (v.push word).words[place]? =
      if place = v.words.size then some word else v.words[place]? := by
  rw [push, Array.getElem?_push]

/-- A word that is added has its last place at the end. -/
theorem ByLastPlace.push {v : Vocabulary} (hv : v.ByLastPlace) (word : String) :
    (v.push word).ByLastPlace where
  sound {w id} h := by
    rw [getElem?_ids_push] at h
    rw [getElem?_words_push]
    by_cases hw : word = w
    · rw [if_pos hw, Option.some.injEq] at h
      rw [if_pos h.symm, hw]
    · rw [if_neg hw] at h
      obtain ⟨hid, -⟩ := Array.getElem?_eq_some_iff.mp (hv.sound h)
      rw [if_neg (Nat.ne_of_lt hid), hv.sound h]
  last {w place} h := by
    rw [getElem?_words_push] at h
    rw [getElem?_ids_push]
    by_cases hplace : place = v.words.size
    · rw [if_pos hplace, Option.some.injEq] at h
      exact ⟨v.words.size, if_pos h, Nat.le_of_eq hplace⟩
    · rw [if_neg hplace] at h
      obtain ⟨hlt, -⟩ := Array.getElem?_eq_some_iff.mp h
      -- An older place of the word that is added is before its new one.
      by_cases hw : word = w
      · exact ⟨v.words.size, if_pos hw, Nat.le_of_lt hlt⟩
      · obtain ⟨id, hid, hle⟩ := hv.last h
        exact ⟨id, (if_neg hw).trans hid, hle⟩

/-- A list of words gives each its last place. -/
theorem byLastPlace_ofList (words : List String) : (ofList words).ByLastPlace := by
  have hfold : ∀ v : Vocabulary, v.ByLastPlace →
      (words.foldl Vocabulary.push v).ByLastPlace := by
    induction words with
    | nil => exact fun v hv => hv
    | cons word words ih => exact fun v hv => ih (v.push word) (hv.push word)
  exact hfold empty byLastPlace_empty

/-! ## What the numbers say -/

namespace ByLastPlace

variable {v : Vocabulary} (hv : v.ByLastPlace)
include hv

/-- A word of the vocabulary has a number. -/
theorem getElem?_idOf {word : String} (h : word ∈ v.words) :
    v.ids[word]? = some (v.idOf word) := by
  obtain ⟨place, hplace⟩ := Array.mem_iff_getElem?.mp h
  obtain ⟨id, hid, -⟩ := hv.last hplace
  rw [idOf, Std.HashMap.getD_eq_getD_getElem?, hid, Option.getD_some]

/-- The number of a word leads back to it. -/
theorem word?_idOf {word : String} (h : word ∈ v.words) : v.word? (v.idOf word) = some word :=
  hv.sound (hv.getElem?_idOf h)

/-- No place of a word is after its number. -/
theorem le_idOf {word : String} {place : Nat} (h : v.word? place = some word) :
    place ≤ v.idOf word := by
  obtain ⟨id, hid, hle⟩ := hv.last h
  have hidOf := hv.getElem?_idOf (Array.mem_iff_getElem?.mpr ⟨place, h⟩)
  rw [hid, Option.some.injEq] at hidOf
  rwa [← hidOf]

/-- The words with a number are those of the vocabulary. -/
theorem contains_iff (word : String) : v.contains word = true ↔ word ∈ v.words := by
  rw [contains, Std.HashMap.contains_eq_isSome_getElem?]
  constructor
  · intro h
    obtain ⟨id, hid⟩ := Option.isSome_iff_exists.mp h
    exact Array.mem_iff_getElem?.mpr ⟨id, hv.sound hid⟩
  · intro h
    rw [hv.getElem?_idOf h, Option.isSome_some]

/-- Any other text has the number of the unknown word. -/
theorem idOf_of_notMem {word : String} (h : word ∉ v.words) : v.idOf word = unknownId := by
  rw [← hv.contains_iff, Bool.not_eq_true] at h
  rw [idOf, Std.HashMap.getD_eq_getD_getElem?, Std.HashMap.getElem?_eq_none_of_contains_eq_false h,
    Option.getD_none]

/-- With an unknown word every text has the number of a word. -/
theorem idOf_lt (hpos : 0 < v.size) (word : String) : v.idOf word < v.size := by
  by_cases hword : word ∈ v.words
  · exact (Array.getElem?_eq_some_iff.mp (hv.word?_idOf hword)).1
  · rwa [hv.idOf_of_notMem hword]

/-- When no word is there twice, its last place is its only one. -/
theorem numbered (hnodup : v.words.toList.Nodup) : v.Numbered := by
  intro word id
  refine ⟨hv.sound, fun h => ?_⟩
  obtain ⟨last, hlast, -⟩ := hv.last h
  have hplace := hv.sound hlast
  rw [← Array.getElem?_toList] at h hplace
  obtain ⟨hlt, -⟩ := List.getElem?_eq_some_iff.mp hplace
  rw [hlast, (List.getElem?_inj hlt hnodup).mp (hplace.trans h.symm)]

end ByLastPlace

/-- The words of a list are those that were added. -/
theorem contains_ofList (words : List String) (word : String) :
    (ofList words).contains word = true ↔ word ∈ words := by
  rw [(byLastPlace_ofList words).contains_iff, words_ofList, List.mem_toArray]

/-! ## Distinct words -/

/-- Words that are numbered by their places are numbered by their last ones. -/
theorem Numbered.byLastPlace {v : Vocabulary} (hv : v.Numbered) : v.ByLastPlace where
  sound h := (hv _ _).mp h
  last h := ⟨_, (hv _ _).mpr h, Nat.le_refl _⟩

/-- A word that is numbered by its place has that number. -/
theorem Numbered.idOf_eq {v : Vocabulary} (hv : v.Numbered) {word : String} {id : Nat}
    (h : v.word? id = some word) : v.idOf word = id := by
  rw [idOf, Std.HashMap.getD_eq_getD_getElem?, (hv word id).mpr h, Option.getD_some]

/-- Words whose places can be told from them are distinct. -/
theorem nodup_of_idOf_eq {v : Vocabulary}
    (h : ∀ {word : String} {id : Nat}, v.word? id = some word → v.idOf word = id) :
    v.words.toList.Nodup := by
  rw [List.nodup_iff_getElem?_ne_getElem?]
  intro i j hij hj heq
  rw [Array.getElem?_toList, Array.getElem?_toList] at heq
  have hword : v.word? j = some v.words[j] := Array.getElem?_eq_getElem hj
  exact absurd ((h (heq.trans hword)).symm.trans (h hword)) (Nat.ne_of_lt hij)

/-- Words that are numbered by their places are distinct. -/
theorem Numbered.nodup {v : Vocabulary} (hv : v.Numbered) : v.words.toList.Nodup :=
  nodup_of_idOf_eq hv.idOf_eq

/-- No words are numbered. -/
theorem numbered_empty : empty.Numbered := byLastPlace_empty.numbered List.nodup_nil

/-- Adding a word that was not there numbers it. -/
theorem Numbered.push {v : Vocabulary} (hv : v.Numbered) {word : String}
    (hnew : v.ids[word]? = none) : (v.push word).Numbered := by
  have hfresh : word ∉ v.words := by
    intro hmem
    rw [hv.byLastPlace.getElem?_idOf hmem] at hnew
    simp at hnew
  refine (hv.byLastPlace.push word).numbered ?_
  rw [Vocabulary.push, Array.toList_push]
  exact List.nodup_append.mpr ⟨hv.nodup, List.nodup_singleton word, fun w hw w' hw' => by
    rw [List.mem_singleton.mp hw']
    exact ne_of_mem_of_not_mem (Array.mem_toList_iff.mp hw) hfresh⟩

/-- Distinct words are numbered by their places. -/
theorem numbered_ofList {words : List String} (h : words.Nodup) : (ofList words).Numbered := by
  refine (byLastPlace_ofList words).numbered ?_
  rwa [words_ofList]

end BackoffLM.Vocabulary
