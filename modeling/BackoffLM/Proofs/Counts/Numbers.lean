import BackoffLM.CountModel
import Mathlib.Data.List.Forall2

/-!
# Counts by words

A count model keeps counts by the numbers of words, and numbers words as they appear. Here its maps
are read by the words themselves (`lookUp`). Numbering more words does not change what is read
(`lookUp_extends`), since no count was kept by a number that was not given out yet, and adding to
the count of an n-gram changes what is read of that n-gram alone (`lookUp_addTo`), since no two
words have the same number. So the estimates that a model mixes can be told without any number
(`mixOlder_eq_mixWords`).
-/

namespace BackoffLM.CountModel

variable {ids ids' ids'' : Std.HashMap String WordId} {words : List String} {key : List WordId}
  {m : Std.HashMap (List WordId) UInt64}

/-! ## Numbers of words -/

/-- The numbers of words, if all of them have one. -/
def keyOf? (ids : Std.HashMap String WordId) (words : List String) : Option (List WordId) :=
  words.mapM (ids[·]?)

/-- Words next to their numbers. -/
def Spells (ids : Std.HashMap String WordId) : List String → List WordId → Prop :=
  List.Forall₂ fun word id => ids[word]? = some id

theorem keyOf?_eq_some_iff : keyOf? ids words = some key ↔ Spells ids words key := by
  unfold keyOf? Spells
  induction words generalizing key with
  | nil =>
    rw [List.mapM_nil, List.forall₂_nil_left_iff]
    exact Option.some_inj.trans eq_comm
  | cons word words ih =>
    rw [List.mapM_cons, List.forall₂_cons_left_iff]
    simp only [Option.bind_eq_bind, Option.bind_eq_some_iff, Option.pure_def, Option.some_inj, ih,
      eq_comm (a := key)]
    grind

theorem Spells.dropLast (h : Spells ids words key) : Spells ids words.dropLast key.dropLast := by
  rw [List.dropLast_eq_take, List.dropLast_eq_take, ← h.length_eq]
  exact List.forall₂_take _ h

/-- Numbers are given out in order, each to one word. -/
structure Numbering (ids : Std.HashMap String WordId) : Prop where
  lt_size : ∀ {word : String} {id : WordId}, ids[word]? = some id → id < ids.size
  injective : ∀ {word word' : String} {id : WordId},
    ids[word]? = some id → ids[word']? = some id → word = word'

/-- Different words have different numbers. -/
theorem Numbering.eq_of_spells (h : Numbering ids) {words' : List String}
    (hwords : Spells ids words key) (hwords' : Spells ids words' key) : words = words' := by
  have hunique : Relator.LeftUnique fun (word : String) (id : WordId) => ids[word]? = some id :=
    fun _ _ _ => h.injective
  exact List.left_unique_forall₂' hunique hwords hwords'

theorem numbering_empty : Numbering ∅ where
  lt_size h := by cases Std.HashMap.getElem?_empty.symm.trans h
  injective h := by cases Std.HashMap.getElem?_empty.symm.trans h

/-- A numbering with more words: those before keep their numbers, and the others have new ones. -/
structure Extends (ids ids' : Std.HashMap String WordId) : Prop where
  keeps : ∀ {word : String} {id : WordId}, ids[word]? = some id → ids'[word]? = some id
  fresh : ∀ {word : String} {id : WordId},
    ids'[word]? = some id → ids[word]? = some id ∨ ids.size ≤ id
  size_le : ids.size ≤ ids'.size

theorem Extends.refl (ids : Std.HashMap String WordId) : Extends ids ids :=
  ⟨id, .inl, Nat.le_refl _⟩

theorem Extends.trans (h : Extends ids ids') (h' : Extends ids' ids'') : Extends ids ids'' where
  keeps hword := h'.keeps (h.keeps hword)
  fresh hword := by
    rcases h'.fresh hword with hbefore | hnew
    · exact h.fresh hbefore
    · exact .inr (Nat.le_trans h.size_le hnew)
  size_le := Nat.le_trans h.size_le h'.size_le

/-! ## Numbering more words -/

/-- What numbering words does. -/
structure Interns (ids : Std.HashMap String WordId) (words : List String) (key : List WordId)
    (ids' : Std.HashMap String WordId) : Prop where
  numbering : Numbering ids'
  extension : Extends ids ids'
  spells : Spells ids' words key
  mem_iff : ∀ word, word ∈ ids' ↔ word ∈ ids ∨ word ∈ words

theorem size_insert_of_new {word : String} (hnew : word ∉ ids) :
    (ids.insert word ids.size).size = ids.size + 1 := by
  rw [Std.HashMap.size_insert, if_neg hnew]

/-- Giving a new word the next number changes the number of no other word. -/
theorem getElem?_insert_of_new {word other : String} {id : WordId} (hnew : word ∉ ids) :
    (ids.insert word ids.size)[other]? = some id ↔
      (other = word ∧ id = ids.size) ∨ ids[other]? = some id := by
  rw [Std.HashMap.getElem?_insert]
  by_cases hother : word = other
  · have hnone : ids[other]? = none := Std.HashMap.getElem?_eq_none (hother ▸ hnew)
    simp [hother, hnone, eq_comm]
  · simp [hother, Ne.symm hother]

theorem Numbering.insert (h : Numbering ids) {word : String} (hnew : word ∉ ids) :
    Numbering (ids.insert word ids.size) where
  lt_size hid := by
    rw [size_insert_of_new hnew]
    rcases (getElem?_insert_of_new hnew).1 hid with ⟨-, rfl⟩ | hid
    · exact Nat.lt_succ_self _
    · exact Nat.lt_succ_of_lt (h.lt_size hid)
  injective hid hid' := by
    rcases (getElem?_insert_of_new hnew).1 hid with ⟨hword, hsize⟩ | hold <;>
      rcases (getElem?_insert_of_new hnew).1 hid' with ⟨hword', hsize'⟩ | hold'
    · exact hword.trans hword'.symm
    · exact absurd hsize (Nat.ne_of_lt (h.lt_size hold'))
    · exact absurd hsize' (Nat.ne_of_lt (h.lt_size hold))
    · exact h.injective hold hold'

theorem extends_insert {word : String} (hnew : word ∉ ids) :
    Extends ids (ids.insert word ids.size) where
  keeps hid := (getElem?_insert_of_new hnew).2 (.inr hid)
  fresh hid := by
    rcases (getElem?_insert_of_new hnew).1 hid with ⟨-, rfl⟩ | hid
    · exact .inr (Nat.le_refl _)
    · exact .inl hid
  size_le := by
    rw [size_insert_of_new hnew]
    exact Nat.le_succ _

/-- A word gets the next number when it has none. -/
theorem interns_intern (h : Numbering ids) (word : String) :
    Interns ids [word] [(intern ids word).1] (intern ids word).2 := by
  unfold intern
  cases hword : ids[word]? with
  | some id =>
    have hmem : word ∈ ids := by
      rw [Std.HashMap.mem_iff_isSome_getElem?, hword]
      rfl
    refine ⟨h, .refl ids, .cons hword .nil, fun other => (or_iff_left_of_imp ?_).symm⟩
    exact fun hother => List.mem_singleton.1 hother ▸ hmem
  | none =>
    have hnew : word ∉ ids := by
      rw [Std.HashMap.mem_iff_isSome_getElem?, hword]
      exact Bool.false_ne_true
    refine ⟨h.insert hnew, extends_insert hnew, .cons ?_ .nil, fun other => ?_⟩
    · exact Std.HashMap.getElem?_insert_self
    · rw [Std.HashMap.mem_insert, beq_iff_eq, List.mem_singleton, or_comm, eq_comm (a := other)]

/-- So does each of several words. -/
theorem interns_internAll (h : Numbering ids) (words : List String) :
    Interns ids words (internAll ids words).1 (internAll ids words).2 := by
  induction words generalizing ids with
  | nil => exact ⟨h, .refl ids, .nil, fun word => (or_iff_left List.not_mem_nil).symm⟩
  | cons word words ih =>
    have hfirst := interns_intern h word
    have hrest := ih hfirst.numbering
    refine ⟨hrest.numbering, hfirst.extension.trans hrest.extension, ?_, fun other => ?_⟩
    · exact .cons (hrest.extension.keeps (List.forall₂_cons.1 hfirst.spells).1) hrest.spells
    · rw [internAll, hrest.mem_iff, hfirst.mem_iff, or_assoc, List.mem_singleton, List.mem_cons]

/-! ## Maps read by words -/

/-- What a map holds under the numbers of words. -/
def lookUp (ids : Std.HashMap String WordId) (m : Std.HashMap (List WordId) UInt64)
    (words : List String) : Option UInt64 :=
  (keyOf? ids words).bind (m[·]?)

/-- A map has only numbers that were given out in its keys. -/
def Keyed (ids : Std.HashMap String WordId) (m : Std.HashMap (List WordId) UInt64) : Prop :=
  ∀ key ∈ m, ∀ id ∈ key, id < ids.size

theorem lookUp_of_spells (h : Spells ids words key) : lookUp ids m words = m[key]? := by
  rw [lookUp, keyOf?_eq_some_iff.2 h, Option.bind_some]

theorem lookUp_eq_some_iff {n : UInt64} :
    lookUp ids m words = some n ↔ ∃ key, Spells ids words key ∧ m[key]? = some n := by
  rw [lookUp, Option.bind_eq_some_iff]
  simp only [keyOf?_eq_some_iff]

theorem lookUp_empty (ids : Std.HashMap String WordId) (words : List String) :
    lookUp ids ∅ words = none := by
  rw [lookUp, Option.bind_eq_none_iff]
  exact fun key _ => Std.HashMap.getElem?_empty

theorem Numbering.lt_of_spells (h : Numbering ids) (hspells : Spells ids words key) :
    ∀ id ∈ key, id < ids.size := by
  induction hspells with
  | nil => exact List.forall_mem_nil _
  | cons hword _ ih => exact List.forall_mem_cons.2 ⟨h.lt_size hword, ih⟩

/-- Words whose numbers were all given out before had them before. -/
theorem Extends.spells_of_lt (h : Extends ids ids') (hspells : Spells ids' words key)
    (hlt : ∀ id ∈ key, id < ids.size) : Spells ids words key := by
  induction hspells with
  | nil => exact .nil
  | cons hword _ ih =>
    obtain ⟨hid, hrest⟩ := List.forall_mem_cons.1 hlt
    exact .cons ((h.fresh hword).resolve_right (Nat.not_le.2 hid)) (ih hrest)

/-- Numbering more words does not change what a map holds. -/
theorem lookUp_extends (h : Extends ids ids') (hkeyed : Keyed ids m) (words : List String) :
    lookUp ids' m words = lookUp ids m words := by
  ext n
  rw [lookUp_eq_some_iff, lookUp_eq_some_iff]
  constructor
  · rintro ⟨key, hspells, hkey⟩
    -- The map has the key, so its numbers were all given out before.
    have hmem : key ∈ m := Std.HashMap.mem_iff_isSome_getElem?.2 (by rw [hkey]; rfl)
    exact ⟨key, h.spells_of_lt hspells (hkeyed key hmem), hkey⟩
  · rintro ⟨key, hspells, hkey⟩
    exact ⟨key, hspells.imp fun _ _ => h.keeps, hkey⟩

/-- Adding to the count of an n-gram changes what the map holds of that n-gram alone. -/
theorem lookUp_addTo (h : Numbering ids) (hspells : Spells ids words key) (n : UInt64)
    (other : List String) :
    lookUp ids (addTo m key n) other =
      if other = words then some ((lookUp ids m words).getD 0 + n) else lookUp ids m other := by
  by_cases hother : other = words
  · rw [if_pos hother, hother, lookUp_of_spells hspells, lookUp_of_spells hspells, addTo,
      Std.HashMap.getElem?_insert_self, Std.HashMap.getD_eq_getD_getElem?]
  · rw [if_neg hother]
    ext count
    rw [lookUp_eq_some_iff, lookUp_eq_some_iff]
    refine exists_congr fun key' => and_congr_right fun hspells' => ?_
    -- Another n-gram has another key, since no two words have the same number.
    have hne : ¬ (key == key') = true := by
      rw [beq_iff_eq]
      rintro rfl
      exact hother (h.eq_of_spells hspells' hspells)
    rw [addTo, Std.HashMap.getElem?_insert, if_neg hne]

theorem Keyed.mono (hkeyed : Keyed ids m) (h : Extends ids ids') : Keyed ids' m :=
  fun key hkey id hid => Nat.lt_of_lt_of_le (hkeyed key hkey id hid) h.size_le

theorem Keyed.addTo (hkeyed : Keyed ids m) (h : Numbering ids) (hspells : Spells ids words key)
    (n : UInt64) : Keyed ids (addTo m key n) := by
  intro other hother
  rcases Std.HashMap.mem_insert.1 hother with hkey | hmem
  · exact beq_iff_eq.1 hkey ▸ h.lt_of_spells hspells
  · exact hkeyed other hmem

/-! ## Estimates by words -/

section

variable (m : CountModel)

/-- The count of an n-gram. -/
def countOf (ngram : List String) : UInt64 := (lookUp m.ids m.counts ngram).getD 0

/-- The counts of the n-grams that continue a context, added up, if there is one. -/
def contextOf? (history : List String) : Option UInt64 := lookUp m.ids m.contexts history

variable {α : Type} [Add α] [Sub α] [Mul α] [Div α] (ofCount : Nat → α)

/-- Mixes estimates as `mixOlder` does. -/
def mixWords (weight : α) (word : String) :
    (history : List String) → (shorter : α) → (older : List String) → α
  | _, shorter, [] => shorter
  | history, shorter, newest :: older =>
    match m.contextOf? (newest :: history) with
    | none => shorter
    | some total =>
      let seen := ofCount (m.countOf (newest :: history ++ [word])).toNat
      let mixed := weight * seen / ofCount total.toNat + (ofCount 1 - weight) * shorter
      mixWords weight word (newest :: history) mixed older

variable {m}

theorem count_of_spells (h : Spells m.ids words key) : m.count key = m.countOf words := by
  rw [count, countOf, lookUp_of_spells h, Std.HashMap.getD_eq_getD_getElem?]

/-- The estimates that are mixed do not depend on the numbers of words. -/
theorem mixOlder_eq_mixWords (weight : α) {word : String} {id : WordId}
    (hword : m.ids[word]? = some id) {history : List String} (hhistory : Spells m.ids history key)
    (shorter : α) (older : List String) :
    m.mixOlder ofCount weight id key shorter older =
      m.mixWords ofCount weight word history shorter older := by
  induction older generalizing history key shorter with
  | nil => rfl
  | cons newest older ih =>
    cases hnewest : m.ids[newest]? with
    | none =>
      have hnone : m.contextOf? (newest :: history) = none := by
        rw [contextOf?, Option.eq_none_iff_forall_ne_some]
        intro total htotal
        obtain ⟨key, hspells, -⟩ := lookUp_eq_some_iff.1 htotal
        cases hspells with
        | cons hnumber _ => cases hnewest.symm.trans hnumber
      simp only [mixOlder, mixWords, hnewest, hnone]
    | some number =>
      have hspells : Spells m.ids (newest :: history) (number :: key) := .cons hnewest hhistory
      have hcontext : m.contextOf? (newest :: history) = m.contexts[number :: key]? :=
        lookUp_of_spells hspells
      have hcount : m.count (number :: key ++ [id]) = m.countOf (newest :: history ++ [word]) :=
        count_of_spells (List.rel_append hspells (.cons hword .nil))
      simp only [mixOlder, mixWords, hnewest, hcontext, hcount]
      cases m.contexts[number :: key]? with
      | none => rfl
      | some total => exact ih hspells _

/-- A word that a model has no number for is one never seen. -/
theorem estimate_of_notMem (weight : α) {word : String} (hword : word ∉ m.ids)
    (context : List String) :
    m.estimate ofCount weight word context = m.estimateAlone ofCount none := by
  simp only [estimate, Std.HashMap.getElem?_eq_none hword]

/-- The estimate of any other word is told by words. -/
theorem estimate_of_mem (weight : α) {word : String} (hword : word ∈ m.ids)
    (context : List String) :
    m.estimate ofCount weight word context =
      m.mixWords ofCount weight word [] (m.estimateAlone ofCount (some (m.countOf [word])))
        (context.take (m.order - 1)) := by
  have hid := Std.HashMap.getElem?_eq_some_getElem hword
  simp only [estimate, hid]
  rw [mixOlder_eq_mixWords ofCount weight hid .nil, count_of_spells (.cons hid .nil)]

end

end BackoffLM.CountModel
