import BackoffLM.Index
import BackoffLM.Index.Pointers
import BackoffLM.Index.Values
import Std.Data.HashSet

/-!
# The trie index

Level `n` of a trie holds the n-grams of order `n` in the order of their reversed words: the last
word first, then the words before it from the newest on. The children of a node, the n-grams with
one more word in front, then stand next to one another in the level below, between two pointers, and
are searched by bisection. An n-gram whose suffix one word shorter is not in the trie has no parent
and is left out, and of two entries for one n-gram the first is kept.
-/

namespace BackoffLM

namespace Trie

/-- One order of n-grams, from order 2 on. -/
structure Level (P V : Type) where
  /-- The oldest word of each n-gram. -/
  words : Array WordId
  values : V
  /-- The pointers to the next level, below the highest order. -/
  next : Option P

/-- The words of an n-gram from the last one backwards. -/
abbrev Key := List WordId

/-- An n-gram under its key. -/
structure Keyed where
  key : Key
  weights : Weights
  deriving DecidableEq, Repr

/-! ## Building -/

/-- Whether an n-gram may stand before another: its key is not the greater one. -/
def Keyed.mayPrecede (a b : Keyed) : Bool := !decide (b.key < a.key)

/-- The n-grams of one order in the order of their keys, of each key the first, with a parent
among the keys given. -/
def sortLevel (n : Nat) (parents : List Key) (level : Array Entry) : List Keyed :=
  let known := Std.HashSet.ofList parents
  let keyed := level.toList.map fun e => (⟨e.words.reverse, e.weights⟩ : Keyed)
  -- The sort is stable, so of equal keys the first of the file comes first, and stays.
  let sorted := keyed.mergeSort Keyed.mayPrecede
  let distinct := sorted.eraseRepsBy fun a b => a.key == b.key
  distinct.filter fun e => known.contains (e.key.take (n - 1))

/-- The levels from order `n` on, under parents of the order below. -/
def sortLevels : (n : Nat) → (parents : List Key) → List (Array Entry) → List (List Keyed)
  | _, _, [] => []
  | n, parents, level :: levels =>
    let kept := sortLevel n parents level
    kept :: sortLevels (n + 1) (kept.map Keyed.key) levels

/-- For each parent the number of children before its own, and at the end the number of all. The
children, `start` of which are passed, and the parents are in order. -/
def childOffsets : (parents : List Key) → (children : List Key) → (start : Nat) → List Nat
  | [], children, start => [start + children.length]
  | parent :: parents, children, start =>
    let passed := (children.takeWhile fun child => child.take parent.length < parent).length
    (start + passed) :: childOffsets parents (children.drop passed) (start + passed)

/-- The offsets from each level to the next, the first from `parents`. -/
def offsetsFrom : (parents : List Key) → List (List Keyed) → List (List Nat)
  | _, [] => []
  | parents, level :: levels =>
    let keys := level.map Keyed.key
    childOffsets parents keys 0 :: offsetsFrom keys levels

/-- The keys of the unigrams. -/
def unigramKeys (count : Nat) : List Key := (List.range count).map fun word => [word]

variable {P V : Type} [PointerArray P] [WeightStore V]

/-- Stores the levels from order `n` on, with the offsets from each to the next. -/
def storeLevels (bits order : Nat) :
    (n : Nat) → List (List Keyed) → (offsets : List (List Nat)) → List (Level P V)
  | _, [], _ => []
  | n, level :: levels, offsets =>
    { words := (level.map fun e => e.key.getD (n - 1) unknownId).toArray
      values := WeightStore.ofWeights bits (level.map Keyed.weights) (n < order)
      next := offsets.head?.map PointerArray.ofOffsets } ::
      storeLevels bits order (n + 1) levels offsets.tail

end Trie

/-- A model as sorted levels, with pointers `P` and weights `V`. -/
structure Trie (P V : Type) where
  unigrams : Array Weights
  /-- The pointers from unigrams to order 2, above order 1. -/
  unigramNext : Option P
  /-- The levels of order 2, 3 and so on. -/
  levels : Array (Trie.Level P V)

namespace Trie

variable {P V : Type} [PointerArray P] [WeightStore V]

/-- Builds the trie of a model. -/
def ofArpa (bits : Nat) (a : Arpa) : Trie P V :=
  let parents := unigramKeys a.unigrams.size
  let levels := sortLevels 2 parents a.ngrams
  let offsets := offsetsFrom parents levels
  ⟨a.unigrams, offsets.head?.map PointerArray.ofOffsets,
    (storeLevels bits a.order 2 levels offsets.tail).toArray⟩

/-! ## Searching -/

/-- The length of the longest n-grams. -/
def order (t : Trie P V) : Nat := orderOf t.levels.size

/-- The pointers from a level to the next. -/
def pointers? (t : Trie P V) : (level : Nat) → Option P
  | 0 => none
  | 1 => t.unigramNext
  | k + 2 => t.levels[k]?.bind Level.next

/-- The places of the children of a node: from the first up to, not including, the second. -/
def children? (t : Trie P V) (level : Nat) (node : Node) : Option (Nat × Nat) :=
  match t.pointers? level with
  | none => none
  | some p =>
    if node + 1 < PointerArray.size p then
      some (PointerArray.get p node, PointerArray.get p (node + 1))
    else none

/-- A node is a place in its level. -/
def extend (t : Trie P V) (level : Nat) (node : Node) (word : WordId) : Option (Node × Weights) :=
  match t.children? level node, t.levels[level - 1]? with
  | some (start, stop), some child =>
    (Bisect.find? child.words word start stop).map fun place =>
      (place, WeightStore.get child.values place)
  | _, _ => none

/-- The number of n-grams of each order. -/
def counts (t : Trie P V) : List Nat :=
  t.unigrams.size :: t.levels.toList.map fun level => level.words.size

/-! ## Files -/

/-- Pointers must lead from `parents` nodes to the next level exactly when there is one. -/
def validateNext (next : Option P) (parents : Nat) (below : List (Level P V)) (flaw : Flaw) :
    Except Flaw Unit :=
  match next, below with
  | some p, level :: _ => PointerArray.validate p parents level.words.size
  | none, [] => .ok ()
  | _, _ => .error flaw

/-- Checks the levels from order `n` on. -/
def validateLevels : (n : Nat) → List (Level P V) → Except Flaw Unit
  | _, [] => .ok ()
  | n, level :: levels => do
    if WeightStore.size level.values ≠ level.words.size then .error (.valueCount n)
    else
      WeightStore.validate level.values
      validateNext level.next level.words.size levels (.pointers n)
      validateLevels (n + 1) levels

/-- Whether a structure that was read can be searched. -/
def validate (t : Trie P V) : Except Flaw Unit :=
  if t.unigrams.isEmpty then .error .noUnigrams
  else do
    validateNext t.unigramNext t.unigrams.size t.levels.toList .unigramPointers
    validateLevels 2 t.levels.toList

/-- A level is its words, weights and pointers. -/
def levelCodec : Codec (Level P V) :=
  ((Codec.seq (.word 4)).pair ((WeightStore.codec (V := V)).pair
    (.optional (PointerArray.codec (P := P))))).map
    (fun p => ⟨p.1, p.2.1, p.2.2⟩) fun level => (level.words, level.values, level.next)

/-- The unigrams, their pointers, then the levels. -/
def codec : Codec (Trie P V) :=
  ((Codec.seq .weights).pair ((Codec.optional (PointerArray.codec (P := P))).pair
    (.seq levelCodec))).map
    (fun p => ⟨p.1, p.2.1, p.2.2⟩) fun t => (t.unigrams, t.unigramNext, t.levels)

instance : StoredIndex (Trie P V) where
  order := order
  unigram t := unigramAt t.unigrams
  extend := extend
  kind := .ofTrie (PointerArray.compressed P) (WeightStore.quantized V)
  build := ofArpa
  counts := counts
  validate := validate
  codec := codec

end Trie

/-- The trie with plain pointers and weights as they are. -/
abbrev SortedTrie := Trie PlainPointers FloatValues

/-- The trie with packed pointers. -/
abbrev ArrayTrie := Trie PackedPointers FloatValues

/-- The trie with quantized weights. -/
abbrev QuantTrie := Trie PlainPointers QuantValues

/-- The trie with packed pointers and quantized weights. -/
abbrev QuantArrayTrie := Trie PackedPointers QuantValues

end BackoffLM
