/-!
# Kinds of stored model

A model is stored as a hash table or as one of four tries, which differ in how they keep child
pointers and weights. A binary file names its kind by a code of one byte.
-/

namespace BackoffLM

/-- How a model is stored. -/
inductive Kind where
  | probing
  | trie
  | arrayTrie
  | quantTrie
  | quantArrayTrie
  deriving DecidableEq, Repr, Inhabited

namespace Kind

/-- Every kind, in the order of their codes. -/
def all : List Kind := [.probing, .trie, .arrayTrie, .quantTrie, .quantArrayTrie]

/-- The code of a kind in a binary file. -/
def code : Kind → UInt8
  | .probing => 0
  | .trie => 1
  | .arrayTrie => 2
  | .quantTrie => 3
  | .quantArrayTrie => 4

/-- The kind that a code names. -/
def ofCode? (code : UInt8) : Option Kind := all.find? fun kind => kind.code == code

/-- The name of a kind. -/
def name : Kind → String
  | .probing => "probing"
  | .trie => "trie"
  | .arrayTrie => "array-trie"
  | .quantTrie => "quant-trie"
  | .quantArrayTrie => "quant-array-trie"

/-- The kind with a name. -/
def ofName? (name : String) : Option Kind := all.find? fun kind => kind.name == name

/-- Whether weights are approximated. -/
def isQuantized : Kind → Bool
  | .quantTrie | .quantArrayTrie => true
  | .probing | .trie | .arrayTrie => false

/-- The trie with given pointers and weights. -/
def ofTrie (compressed quantized : Bool) : Kind :=
  match compressed, quantized with
  | false, false => .trie
  | true, false => .arrayTrie
  | false, true => .quantTrie
  | true, true => .quantArrayTrie

end Kind

end BackoffLM
