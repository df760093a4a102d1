import BackoffLM.Index.Probing
import BackoffLM.Index.Trie
import BackoffLM.Proofs.Bisect
import BackoffLM.Proofs.Probing.Table
import BackoffLM.Proofs.Safety.Access

/-!
# Search structures that were read can be searched

For each kind of search structure `unigramGuarded` and `extendGuarded` are the searches with every
access guarded, and `Sound` is what the accesses need: the children of every node are a stretch of
the level below, every weight is there, and every table has an empty bucket. `validate` ensures it
whatever else the structure holds (`Trie.sound_of_validate`, `Probing.sound_of_validate`), and under
it the guarded searches give what the searches give. `GuardedIndex` gathers this for the runs over
any kind.
-/

namespace BackoffLM

/-- The weights of a word, or those of the unknown word, which must be there. -/
def unigramAtGuarded (unigrams : Array Weights) (word : WordId) : Except Fault (Node × Weights) :=
  match unigrams[word]? with
  | some weights => .ok (word, weights)
  | none => do
    let weights ← Guarded.element unigrams unknownId
    .ok (unknownId, weights)

/-- With an unknown word every word is found. -/
theorem unigramAtGuarded_eq {unigrams : Array Weights} (h : 0 < unigrams.size) (word : WordId) :
    unigramAtGuarded unigrams word = .ok (unigramAt unigrams word) := by
  unfold unigramAtGuarded unigramAt
  cases unigrams[word]? with
  | some weights => rfl
  | none =>
    rw [Guarded.element_eq (i := unknownId) h default]
    rfl

/-! ## Tries -/

namespace Trie

variable {P V : Type} [PointerArray P]

/-- What the search of a trie relies on. -/
structure Sound [WeightStore V] (t : Trie P V) : Prop where
  unigrams_pos : 0 < t.unigrams.size
  /-- The children of a node are a stretch of the level below. -/
  children : ∀ level node start stop, 1 ≤ level → t.children? level node = some (start, stop) →
    ∃ child, t.levels[level - 1]? = some child ∧ start ≤ stop ∧ stop ≤ child.words.size
  /-- Every n-gram has weights. -/
  values : ∀ child ∈ t.levels, WeightStore.size child.values = child.words.size

section Guarded

variable [GuardedPointers P]

/-- The places of the children of a node. There is no level 0. -/
def childrenGuarded (t : Trie P V) (level : Nat) (node : Node) :
    Except Fault (Option (Nat × Nat)) :=
  if level = 0 then .error .outOfRange
  else
    match t.pointers? level with
    | none => .ok none
    | some p =>
      if node + 1 < PointerArray.size p then do
        let start ← GuardedPointers.getGuarded p node
        let stop ← GuardedPointers.getGuarded p (node + 1)
        .ok (some (start, stop))
      else .ok none

/-- Pointers are only read below their number. -/
theorem childrenGuarded_eq (t : Trie P V) {level : Nat} (hlevel : 1 ≤ level) (node : Nat) :
    t.childrenGuarded level node = .ok (t.children? level node) := by
  unfold childrenGuarded children?
  rw [if_neg (by omega)]
  cases t.pointers? level with
  | none => rfl
  | some p =>
    dsimp only
    by_cases hnode : node + 1 < PointerArray.size p
    · rw [if_pos hnode, if_pos hnode, GuardedPointers.getGuarded_eq p node (by omega),
        GuardedPointers.getGuarded_eq p (node + 1) hnode]
      rfl
    · rw [if_neg hnode, if_neg hnode]

variable [WeightStore V] [GuardedWeights V]

/-- The child of a node for a word, searched in the stretch of the children only. -/
def extendGuarded (t : Trie P V) (level : Nat) (node : Node) (word : WordId) :
    Except Fault (Option (Node × Weights)) := do
  match ← t.childrenGuarded level node with
  | none => .ok none
  | some (start, stop) =>
    match t.levels[level - 1]? with
    | none => .ok none
    | some child =>
      Guarded.stretch child.words.size start stop
      match Bisect.find? child.words word start stop with
      | none => .ok none
      | some place => do
        let weights ← GuardedWeights.getGuarded child.values place
        .ok (some (place, weights))

/-- The search for a child goes well in a sound trie. -/
theorem extendGuarded_eq {t : Trie P V} (h : t.Sound) {level : Nat} (hlevel : 1 ≤ level)
    (node : Node) (word : WordId) :
    t.extendGuarded level node word = .ok (t.extend level node word) := by
  unfold extendGuarded extend
  rw [childrenGuarded_eq t hlevel node, ok_bind]
  cases hchildren : t.children? level node with
  | none => rfl
  | some range =>
    obtain ⟨start, stop⟩ := range
    obtain ⟨child, hchild, hle, hstop⟩ := h.children level node start stop hlevel hchildren
    rw [hchild]
    dsimp only
    -- The stretch of the children is in range, and so is the place that is found inside it.
    rw [Guarded.stretch_eq hle hstop, ok_bind]
    cases hfind : Bisect.find? child.words word start stop with
    | none => rfl
    | some place =>
      have hplace : place < stop := (Bisect.find?_sound hfind).2.1
      have hvalues := h.values child (Array.mem_of_getElem? hchild)
      dsimp only
      rw [GuardedWeights.getGuarded_eq child.values place (by omega)]
      rfl

/-- Pointers that decrease are a range that ends before it starts. -/
example : (⟨#[default, default], some ⟨#[0, 2, 1]⟩, #[⟨#[3, 5], ⟨#[default, default]⟩, none⟩]⟩ :
    SortedTrie).extendGuarded 1 1 5 = .error .invertedRange := rfl

end Guarded

/-- Pointers that were checked lead to stretches of the level below. -/
theorem bounds_of_validateNext {p : P} {parents : Nat} {below : List (Level P V)} {flaw : Flaw}
    (h : validateNext (some p) parents below flaw = .ok ()) :
    ∃ child, below[0]? = some child ∧ PointerArray.Bounds p parents child.words.size := by
  cases below with
  | nil => simp [validateNext] at h
  | cons child below => exact ⟨child, rfl, PointerArray.validate_spec h⟩

variable [WeightStore V]

/-- What the check of the levels ensures of each. -/
theorem validateLevels_spec {n : Nat} {levels : List (Level P V)}
    (h : validateLevels n levels = .ok ()) (k : Nat) (level : Level P V)
    (hk : levels[k]? = some level) :
    WeightStore.size level.values = level.words.size ∧
      ∀ p, level.next = some p →
        ∃ child, levels[k + 1]? = some child ∧
          PointerArray.Bounds p level.words.size child.words.size := by
  induction levels generalizing n k with
  | nil => simp at hk
  | cons first levels ih =>
    unfold validateLevels at h
    -- The number of weights was checked, then the pointers into the next level, then the rest.
    obtain ⟨hsize, h⟩ := ite_error_eq_ok.mp h
    obtain ⟨⟨⟩, -, h⟩ := bind_eq_ok.mp h
    obtain ⟨⟨⟩, hnext, hrest⟩ := bind_eq_ok.mp h
    cases k with
    | zero =>
      rw [List.getElem?_cons_zero, Option.some.injEq] at hk
      subst hk
      refine ⟨by omega, fun p hp => ?_⟩
      rw [hp] at hnext
      obtain ⟨child, hchild, hbounds⟩ := bounds_of_validateNext hnext
      exact ⟨child, hchild, hbounds⟩
    | succ k => exact ih hrest k hk

/-- A trie that passes the check is sound. -/
theorem sound_of_validate {t : Trie P V} (h : t.validate = .ok ()) : t.Sound := by
  unfold validate at h
  obtain ⟨hempty, h⟩ := ite_error_eq_ok.mp h
  obtain ⟨⟨⟩, hroots, hlevels⟩ := bind_eq_ok.mp h
  -- The pointers of every level lead to stretches of the next.
  have hpointers : ∀ level p, 1 ≤ level → t.pointers? level = some p →
      ∃ child parents, t.levels[level - 1]? = some child ∧
        PointerArray.Bounds p parents child.words.size := by
    intro level p hlevel hp
    match level, hlevel with
    | 1, _ =>
      have hp : t.unigramNext = some p := hp
      rw [hp] at hroots
      obtain ⟨child, hchild, hbounds⟩ := bounds_of_validateNext hroots
      exact ⟨child, _, by rw [← Array.getElem?_toList]; exact hchild, hbounds⟩
    | k + 2, _ =>
      have hp : t.levels[k]?.bind Level.next = some p := hp
      obtain ⟨level, hlevel, hnext⟩ := Option.bind_eq_some_iff.mp hp
      obtain ⟨child, hchild, hbounds⟩ := (validateLevels_spec hlevels k level
        (by rw [Array.getElem?_toList]; exact hlevel)).2 p hnext
      exact ⟨child, _, by rw [← Array.getElem?_toList]; exact hchild, hbounds⟩
  refine ⟨?_, fun level node start stop hlevel hchildren => ?_, fun child hchild => ?_⟩
  · rw [Array.isEmpty_iff_size_eq_zero] at hempty
    omega
  · unfold children? at hchildren
    split at hchildren
    · simp at hchildren
    · rename_i p hp
      split at hchildren
      · rename_i hnode
        obtain ⟨child, parents, hchild, hbounds⟩ := hpointers level p hlevel hp
        obtain ⟨rfl, rfl⟩ := Prod.mk.inj (Option.some.inj hchildren)
        exact ⟨child, hchild, hbounds.get_mono node (node + 1) (by omega) hnode,
          hbounds.le_children (node + 1) hnode⟩
      · simp at hchildren
  · obtain ⟨k, hk⟩ := Array.mem_iff_getElem?.mp hchild
    exact (validateLevels_spec hlevels k child (by rw [Array.getElem?_toList]; exact hk)).1

end Trie

/-! ## Hash tables -/

namespace Probing

/-- What the search of hash tables relies on. -/
structure Sound (p : Probing) : Prop where
  unigrams_pos : 0 < p.unigrams.size
  /-- Every table has an empty bucket. -/
  empty : ∀ t ∈ p.tables, ∃ b ∈ t.buckets, b.key = emptyKey

namespace Table

/-- The walk from a bucket to the first that holds a key or is empty. After as many steps as there
are buckets it has met them all, and goes round for ever (`seek_eq_none_of_round`). -/
def seekGuarded (buckets : Array Bucket) (key : UInt64) : (steps i : Nat) → Except Fault Nat
  | 0, _ => .error .endlessProbe
  | steps + 1, i => do
    let b ← Guarded.element buckets i
    if b.key = key ∨ b.key = emptyKey then .ok i
    else seekGuarded buckets key steps ((i + 1) % buckets.size)

/-- A walk once around a table that does not end never does. -/
theorem seek_eq_none_of_round {buckets : Array Bucket} {key : UInt64} {i : Nat}
    (hi : i < buckets.size) (h : seek buckets key buckets.size i = none) (steps : Nat) :
    seek buckets key steps i = none := by
  rw [Option.eq_none_iff_forall_ne_some] at h ⊢
  intro j hj
  obtain ⟨d, -, hreach, hstop, hbefore⟩ := (seek_eq_some_iff hi).mp hj
  refine h j ((seek_eq_some_iff hi).mpr ⟨d, ?_, hreach, hstop, hbefore⟩)
  by_contra hround
  -- The bucket was met before, one round earlier.
  refine hbefore (d - buckets.size) (by omega) ?_
  rw [hreach, show i + d = i + (d - buckets.size) + buckets.size by omega,
    Nat.add_mod_right] at hstop
  exact hstop

/-- The weights of a key. The division gives no bucket when there are none. -/
def findGuarded (t : Table) (key : UInt64) : Except Fault (Option Weights) :=
  if t.buckets.size = 0 then .error .outOfRange
  else do
    let i ← seekGuarded t.buckets key t.buckets.size (key.toNat % t.buckets.size)
    let b ← Guarded.element t.buckets i
    .ok (if b.key = key then some b.weights else none)

/-- A walk that ends stays in the table. -/
theorem seekGuarded_eq {buckets : Array Bucket} {key : UInt64} {steps i j : Nat}
    (h : seek buckets key steps i = some j) : seekGuarded buckets key steps i = .ok j := by
  induction steps generalizing i with
  | zero => simp [seek] at h
  | succ steps ih =>
    rw [seek] at h
    split at h
    · simp at h
    · rename_i b hb
      have hget : Guarded.element buckets i = .ok b := by
        unfold Guarded.element
        rw [hb]
      rw [seekGuarded, hget, ok_bind]
      split at h
      · rename_i hstop
        rw [if_pos hstop, Option.some.inj h]
      · rename_i hstop
        rw [if_neg hstop, ih h]

/-- With an empty bucket a lookup goes well. -/
theorem findGuarded_eq {t : Table} (h : ∃ b ∈ t.buckets, b.key = emptyKey) (key : UInt64) :
    t.findGuarded key = .ok (t.find? key) := by
  obtain ⟨b, hb, hempty⟩ := h
  obtain ⟨i, hi⟩ := Array.mem_iff_getElem?.mp hb
  -- The search ends, at the latest at the empty bucket.
  obtain ⟨j, hj⟩ := Option.isSome_iff_exists.mp (place_isSome hi hempty key)
  obtain ⟨hlt, -⟩ := stops_of_place hj
  unfold findGuarded find?
  rw [if_neg (by omega), hj, seekGuarded_eq hj, ok_bind, Guarded.element_eq hlt default, ok_bind]

end Table

/-- The n-gram with an older word in front. There are no n-grams at level 0. -/
def extendGuarded (p : Probing) (level : Nat) (node : Node) (word : WordId) :
    Except Fault (Option (Node × Weights)) :=
  match level with
  | 0 => .ok none
  | k + 1 =>
    match p.tables[k]? with
    | none => .ok none
    | some table => do
      let key := extendHash (UInt64.ofNat node) word
      let found ← table.findGuarded key
      .ok (found.map fun weights => (key.toNat, weights))

/-- The search in a table goes well in sound tables. -/
theorem extendGuarded_eq {p : Probing} (h : p.Sound) (level : Nat) (node : Node) (word : WordId) :
    p.extendGuarded level node word = .ok (p.extend level node word) := by
  unfold extendGuarded extend
  cases level with
  | zero => rfl
  | succ k =>
    dsimp only
    cases htable : p.tables[k]? with
    | none => rfl
    | some table =>
      dsimp only
      rw [Table.findGuarded_eq (h.empty table (Array.mem_of_getElem? htable)), ok_bind]

/-- In a full table the walk for a key that is not there does not end. -/
example : (⟨#[default], #[⟨#[⟨1, default⟩, ⟨2, default⟩], 2⟩]⟩ : Probing).extendGuarded 1 0 5 =
    .error .endlessProbe := rfl

/-- Tables that were checked are not full. -/
theorem used_lt_of_validateTables {n : Nat} {tables : List Table}
    (h : validateTables n tables = .ok ()) : ∀ t ∈ tables, t.used < t.buckets.size := by
  induction tables generalizing n with
  | nil => simp
  | cons first tables ih =>
    unfold validateTables at h
    obtain ⟨hroom, h⟩ := ite_error_eq_ok.mp h
    intro t ht
    rcases List.mem_cons.mp ht with rfl | ht
    · omega
    · exact ih h t ht

/-- Hash tables that pass the check are sound. -/
theorem sound_of_validate {p : Probing} (h : p.validate = .ok ()) : p.Sound := by
  unfold validate at h
  obtain ⟨hempty, h⟩ := ite_error_eq_ok.mp h
  refine ⟨?_, fun t ht => ?_⟩
  · rw [Array.isEmpty_iff_size_eq_zero] at hempty
    omega
  · obtain ⟨i, b, hb, hkey⟩ := Table.exists_empty
      (used_lt_of_validateTables h t (Array.mem_toList_iff.mpr ht))
    exact ⟨b, Array.mem_of_getElem? hb, hkey⟩

end Probing

/-! ## Every kind -/

/-- A search structure whose searches are also given with every access guarded. -/
class GuardedIndex (S : Type) [StoredIndex S] where
  unigramGuarded : S → WordId → Except Fault (Node × Weights)
  extendGuarded : S → (level : Nat) → Node → WordId → Except Fault (Option (Node × Weights))
  /-- What the guarded searches rely on. -/
  Sound : S → Prop
  sound_of_validate : ∀ index : S, StoredIndex.validate index = .ok () → Sound index
  unigramGuarded_eq : ∀ index : S, Sound index → ∀ word,
    unigramGuarded index word = .ok (NgramIndex.unigram index word)
  extendGuarded_eq : ∀ index : S, Sound index → ∀ level node word, 1 ≤ level →
    extendGuarded index level node word = .ok (NgramIndex.extend index level node word)

instance {P V : Type} [PointerArray P] [WeightStore V] [GuardedPointers P] [GuardedWeights V] :
    GuardedIndex (Trie P V) where
  unigramGuarded t := unigramAtGuarded t.unigrams
  extendGuarded := Trie.extendGuarded
  Sound := Trie.Sound
  sound_of_validate _ := Trie.sound_of_validate
  unigramGuarded_eq _ h := unigramAtGuarded_eq h.unigrams_pos
  extendGuarded_eq _ h _ node word hlevel := Trie.extendGuarded_eq h hlevel node word

instance : GuardedIndex Probing where
  unigramGuarded p := unigramAtGuarded p.unigrams
  extendGuarded := Probing.extendGuarded
  Sound := Probing.Sound
  sound_of_validate _ := Probing.sound_of_validate
  unigramGuarded_eq _ h := unigramAtGuarded_eq h.unigrams_pos
  extendGuarded_eq _ h level node word _ := Probing.extendGuarded_eq h level node word

namespace Kind

/-- The search structure of a kind. -/
def Index : Kind → Type
  | .probing => Probing
  | .trie => SortedTrie
  | .arrayTrie => ArrayTrie
  | .quantTrie => QuantTrie
  | .quantArrayTrie => QuantArrayTrie

instance : (kind : Kind) → StoredIndex kind.Index
  | .probing => inferInstanceAs (StoredIndex Probing)
  | .trie => inferInstanceAs (StoredIndex SortedTrie)
  | .arrayTrie => inferInstanceAs (StoredIndex ArrayTrie)
  | .quantTrie => inferInstanceAs (StoredIndex QuantTrie)
  | .quantArrayTrie => inferInstanceAs (StoredIndex QuantArrayTrie)

instance : (kind : Kind) → GuardedIndex kind.Index
  | .probing => inferInstanceAs (GuardedIndex Probing)
  | .trie => inferInstanceAs (GuardedIndex SortedTrie)
  | .arrayTrie => inferInstanceAs (GuardedIndex ArrayTrie)
  | .quantTrie => inferInstanceAs (GuardedIndex QuantTrie)
  | .quantArrayTrie => inferInstanceAs (GuardedIndex QuantArrayTrie)

end Kind

end BackoffLM
