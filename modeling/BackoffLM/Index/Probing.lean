import BackoffLM.Index

/-!
# The hash table index

For each order from 2 on, a table of buckets holds the weights of n-grams under a 64-bit hash of
their words, chained from the last word backwards. A key is looked for from the bucket that it
divides to, over the following ones, up to the bucket that holds it or an empty one; a table has
more buckets than entries, so the walk ends. Key 0 marks an empty bucket, and no hash is 0.
-/

namespace BackoffLM.Probing

/-- The key of an empty bucket. -/
def emptyKey : UInt64 := 0

/-- The hash of an n-gram with an older word in front. -/
def extendHash (current : UInt64) (word : WordId) : UInt64 :=
  let key := (current * 8978948897894561157) ^^^
    (UInt64.ofNat (1 + word) * 17894857484156487943)
  if key = emptyKey then 1 else key

/-- The hash of an n-gram in reading order. -/
def ngramHash (words : List WordId) : UInt64 :=
  match words.reverse with
  | [] => 0
  | word :: older => older.foldl extendHash (UInt64.ofNat word)

/-- A place of a table. -/
structure Bucket where
  key : UInt64
  weights : Weights
  deriving DecidableEq, Repr, Inhabited

/-- The n-grams of one order. -/
structure Table where
  buckets : Array Bucket
  /-- The number of buckets in use. -/
  entries : Nat
  deriving DecidableEq, Repr, Inhabited

namespace Table

/-- An empty table with room for `entries` keys: half as many buckets again, and one more. -/
def withRoom (entries : Nat) : Table := ⟨Array.replicate (entries * 3 / 2 + 1) default, 0⟩

/-- Walks from bucket `i` over at most `steps` buckets to the first that holds `key` or is
empty. -/
def seek (buckets : Array Bucket) (key : UInt64) : (steps i : Nat) → Option Nat
  | 0, _ => none
  | steps + 1, i =>
    match buckets[i]? with
    | none => none
    | some b =>
      if b.key = key ∨ b.key = emptyKey then some i
      else seek buckets key steps ((i + 1) % buckets.size)

/-- The bucket that holds `key`, or the empty one where it would go. -/
def place (t : Table) (key : UInt64) : Option Nat :=
  seek t.buckets key t.buckets.size (key.toNat % t.buckets.size)

/-- Sets the weights of a key. -/
def insert (t : Table) (key : UInt64) (weights : Weights) : Table :=
  match t.place key with
  | none => t
  | some i =>
    let taken := (t.buckets.getD i default).key != emptyKey
    ⟨t.buckets.setIfInBounds i ⟨key, weights⟩, if taken then t.entries else t.entries + 1⟩

/-- The weights of a key. -/
def find? (t : Table) (key : UInt64) : Option Weights :=
  match t.place key with
  | none => none
  | some i =>
    let b := t.buckets.getD i default
    if b.key = key then some b.weights else none

/-- The number of buckets that hold a key. -/
def used (t : Table) : Nat := t.buckets.countP fun b => b.key != emptyKey

/-- The table of the n-grams of one order. -/
def ofEntries (hasBackoff : Bool) (entries : Array Entry) : Table :=
  entries.foldl (fun t e => t.insert (ngramHash e.words) (e.weights.keepBackoff hasBackoff))
    (withRoom entries.size)

/-- A bucket is its key and weights; a table is its buckets and the number in use. -/
def codec : Codec Table :=
  let bucket : Codec Bucket :=
    (Codec.word64.pair .weights).map (fun p => ⟨p.1, p.2⟩) fun b => (b.key, b.weights)
  ((Codec.seq bucket).pair (.word 8)).map (fun p => ⟨p.1, p.2⟩) fun t => (t.buckets, t.entries)

end Table

end Probing

/-- A model as one hash table for each order from 2 on. -/
structure Probing where
  unigrams : Array Weights
  tables : Array Probing.Table
  deriving Inhabited

namespace Probing

/-- The length of the longest n-grams. -/
def order (p : Probing) : Nat := orderOf p.tables.size

/-- A node is the hash of its n-gram. -/
def extend (p : Probing) (level : Nat) (node : Node) (word : WordId) : Option (Node × Weights) :=
  match level with
  | 0 => none
  | k + 1 =>
    match p.tables[k]? with
    | none => none
    | some table =>
      let key := extendHash (UInt64.ofNat node) word
      (table.find? key).map fun weights => (key.toNat, weights)

/-- The tables of the orders from `n` on, of a model of a given order. -/
def tablesFrom (order : Nat) : (n : Nat) → List (Array Entry) → List Table
  | _, [] => []
  | n, level :: levels => Table.ofEntries (n < order) level :: tablesFrom order (n + 1) levels

/-- Builds the tables of a model. -/
def ofArpa (a : Arpa) : Probing := ⟨a.unigrams, (tablesFrom a.order 2 a.ngrams).toArray⟩

/-- The number of n-grams of each order. -/
def counts (p : Probing) : List Nat := p.unigrams.size :: p.tables.toList.map Table.entries

/-- Every table must say how many buckets are in use, and have one that is not. -/
def validateTables : (n : Nat) → List Table → Except Flaw Unit
  | _, [] => .ok ()
  | n, t :: tables =>
    if t.used ≠ t.entries ∨ t.buckets.size ≤ t.entries then
      .error (.bucketUse n t.used t.buckets.size t.entries)
    else validateTables (n + 1) tables

/-- Whether a structure that was read can be searched. -/
def validate (p : Probing) : Except Flaw Unit :=
  if p.unigrams.isEmpty then .error .noUnigrams else validateTables 2 p.tables.toList

/-- The unigrams, then the tables. -/
def codec : Codec Probing :=
  ((Codec.seq .weights).pair (.seq Table.codec)).map (fun p => ⟨p.1, p.2⟩)
    fun p => (p.unigrams, p.tables)

instance : StoredIndex Probing where
  order := order
  unigram p := unigramAt p.unigrams
  extend := extend
  kind := .probing
  build _ := ofArpa
  counts := counts
  validate := validate
  codec := codec

end Probing

end BackoffLM
