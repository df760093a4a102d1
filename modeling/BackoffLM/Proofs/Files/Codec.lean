import BackoffLM.Codec
import BackoffLM.Proofs.Files.Utf8
import BackoffLM.Proofs.Outcome

/-!
# What is written is read back

A codec is `Faithful` to a value when it reads back what it writes of it, whatever follows. Lengths
are written as words of 64 bits, so this is said of encodings that are shorter than `lengthBound`;
as the encodings of the parts of a value are no longer than that of the whole, and those of elements
are not empty (`Visible`), no length inside needs a bound of its own. Words are faithful to numbers
that fit into them (`faithful_word`), and every combinator keeps faithfulness.
-/

namespace BackoffLM

/-- The number of bytes that a length of 64 bits cannot count. -/
def lengthBound : Nat := 0x10000000000000000

/-! ## Little-endian words -/

/-- How many numbers fit into a word of some bytes. -/
def wordRange (width : Nat) : Nat := Nat.pow 256 width

/-- A word has its width. -/
theorem length_littleEndian (width n : Nat) : (littleEndian width n).length = width := by
  induction width generalizing n with
  | zero => rfl
  | succ width ih => rw [littleEndian, List.length_cons, ih]

/-- The bytes of a word give back the number, up to the width. -/
theorem ofLittleEndian_littleEndian (width n : Nat) :
    ofLittleEndian (littleEndian width n) = n % wordRange width := by
  induction width generalizing n with
  | zero => exact (Nat.mod_one n).symm
  | succ width ih =>
    have hstep : ofLittleEndian (littleEndian (width + 1) n) =
        (UInt8.ofNat n).toNat + 256 * ofLittleEndian (littleEndian width (n / 256)) := rfl
    have hbyte : (UInt8.ofNat n).toNat = n % 256 := UInt8.toNat_ofNat'
    have hrange : wordRange (width + 1) = 256 * wordRange width := Nat.mul_comm _ _
    rw [hstep, ih, hbyte, hrange, Nat.mod_mul]

/-- A number that fits into a word is given back. -/
theorem ofLittleEndian_of_lt {width n : Nat} (h : n < wordRange width) :
    ofLittleEndian (littleEndian width n) = n := by
  rw [ofLittleEndian_littleEndian, Nat.mod_eq_of_lt h]

/-- The number of some bytes fits into their word. -/
theorem ofLittleEndian_lt (bytes : List UInt8) : ofLittleEndian bytes < wordRange bytes.length := by
  induction bytes with
  | nil => exact Nat.one_pos
  | cons b bytes ih =>
    have hb : b.toNat < 256 := b.toNat_lt
    have hnumber : ofLittleEndian (b :: bytes) = b.toNat + 256 * ofLittleEndian bytes := rfl
    have hrange : wordRange (b :: bytes).length = 256 * wordRange bytes.length := Nat.mul_comm _ _
    rw [hnumber, hrange]
    omega

/-- The word of the number of some bytes is these bytes. -/
theorem littleEndian_ofLittleEndian (bytes : List UInt8) :
    littleEndian bytes.length (ofLittleEndian bytes) = bytes := by
  induction bytes with
  | nil => rfl
  | cons b bytes ih =>
    have hb : b.toNat < 256 := b.toNat_lt
    have hnumber : ofLittleEndian (b :: bytes) = b.toNat + 256 * ofLittleEndian bytes := rfl
    have hlow : UInt8.ofNat (b.toNat + 256 * ofLittleEndian bytes) = b := by
      refine UInt8.toNat_inj.mp ?_
      rw [UInt8.toNat_ofNat', Nat.add_mul_mod_self_left, Nat.mod_eq_of_lt hb]
    have hhigh : (b.toNat + 256 * ofLittleEndian bytes) / 256 = ofLittleEndian bytes := by omega
    rw [List.length_cons, hnumber, littleEndian, hlow, hhigh, ih]

/-- Four bytes are those of their number of 32 bits. -/
theorem littleEndian_word32 {bytes : List UInt8} (h : bytes.length = 4) :
    littleEndian 4 (UInt32.ofNat (ofLittleEndian bytes)).toNat = bytes := by
  have hlt : ofLittleEndian bytes < wordRange 4 := h ▸ ofLittleEndian_lt bytes
  rw [UInt32.toNat_ofNat_of_lt' hlt, ← h, littleEndian_ofLittleEndian]

/-- Eight bytes are those of their number of 64 bits. -/
theorem littleEndian_word64 {bytes : List UInt8} (h : bytes.length = 8) :
    littleEndian 8 (UInt64.ofNat (ofLittleEndian bytes)).toNat = bytes := by
  have hlt : ofLittleEndian bytes < wordRange 8 := h ▸ ofLittleEndian_lt bytes
  rw [UInt64.toNat_ofNat_of_lt' hlt, ← h, littleEndian_ofLittleEndian]

namespace Codec

variable {α β : Type}

/-- A codec reads back what it writes of a value, whatever follows. -/
def Faithful (c : Codec α) (a : α) : Prop :=
  (c.encode a).length < lengthBound → ∀ rest, c.decode (c.encode a ++ rest) = .ok (a, rest)

/-- No encoding is empty. -/
def Visible (c : Codec α) : Prop := ∀ a, 0 < (c.encode a).length

/-- A word is read back. -/
theorem decode_word {width n : Nat} (h : n < wordRange width) (rest : List UInt8) :
    (word width).decode (littleEndian width n ++ rest) = .ok (n, rest) := by
  have hlen := length_littleEndian width n
  unfold word
  dsimp only
  rw [List.take_left' hlen, if_neg (by omega), List.drop_left' hlen, ofLittleEndian_of_lt h]

/-- A word is faithful to the numbers that fit into it. -/
theorem faithful_word {width n : Nat} (h : n < wordRange width) : (word width).Faithful n :=
  fun _ rest => decode_word h rest

/-- A word of some bytes is not empty. -/
theorem visible_word {width : Nat} (h : 0 < width) : (word width).Visible := by
  intro n
  show 0 < (littleEndian width n).length
  rw [length_littleEndian]
  exact h

/-! ## Combinators -/

/-- Values written as others are read back when the others are. -/
theorem Faithful.map {c : Codec α} {forth : α → β} {back : β → α} {b : β}
    (h : c.Faithful (back b)) (hback : forth (back b) = b) : (c.map forth back).Faithful b := by
  intro hlen rest
  show (c.decode (c.encode (back b) ++ rest) >>= fun p => .ok (forth p.1, p.2)) = _
  rw [h hlen rest, ok_bind, hback]

/-- Values are written as others that are not empty. -/
theorem Visible.map {c : Codec α} (h : c.Visible) (forth : α → β) (back : β → α) :
    (c.map forth back).Visible := fun b => h (back b)

/-- Two values are written in as many bytes as both take. -/
theorem length_encode_pair (c : Codec α) (d : Codec β) (p : α × β) :
    ((c.pair d).encode p).length = (c.encode p.1).length + (d.encode p.2).length :=
  List.length_append

/-- The encoding of the first of two values is within that of both. -/
theorem length_encode_fst_le (c : Codec α) (d : Codec β) (p : α × β) :
    (c.encode p.1).length ≤ ((c.pair d).encode p).length := by
  rw [length_encode_pair]
  exact Nat.le_add_right _ _

/-- The encoding of the second of two values is within that of both. -/
theorem length_encode_snd_le (c : Codec α) (d : Codec β) (p : α × β) :
    (d.encode p.2).length ≤ ((c.pair d).encode p).length := by
  rw [length_encode_pair]
  exact Nat.le_add_left _ _

/-- Two values are read back when each is. -/
theorem Faithful.pair {c : Codec α} {d : Codec β} {p : α × β} (hc : c.Faithful p.1)
    (hd : d.Faithful p.2) : (c.pair d).Faithful p := by
  intro hlen rest
  rw [length_encode_pair] at hlen
  show (c.decode (c.encode p.1 ++ d.encode p.2 ++ rest) >>= fun q =>
    d.decode q.2 >>= fun r => .ok ((q.1, r.1), r.2)) = _
  rw [List.append_assoc, hc (by omega), ok_bind, hd (by omega), ok_bind]

/-- Two values are not empty when the first is not. -/
theorem Visible.pair {c : Codec α} (hc : c.Visible) (d : Codec β) : (c.pair d).Visible := by
  intro p
  exact Nat.lt_of_lt_of_le (hc p.1) (length_encode_fst_le c d p)

/-- Values one after another are read back onto those before. -/
theorem items_flatMap {c : Codec α} (xs : List α) (done : Array α) (rest : List UInt8)
    (h : ∀ x ∈ xs, ∀ rest, c.decode (c.encode x ++ rest) = .ok (x, rest)) :
    items c.decode xs.length done (xs.flatMap c.encode ++ rest) =
      .ok (done ++ xs.toArray, rest) := by
  induction xs generalizing done with
  | nil => simp [items]
  | cons x xs ih =>
    rw [List.length_cons, items, List.flatMap_cons, List.append_assoc, h x (by simp), ok_bind]
    dsimp only
    rw [ih _ fun y hy => h y (List.mem_cons_of_mem x hy)]
    simp

/-- A sequence is written in eight bytes and those of its elements. -/
theorem length_encode_seq (c : Codec α) (xs : Array α) :
    ((seq c).encode xs).length = 8 + (xs.toList.flatMap c.encode).length := by
  show (littleEndian 8 xs.size ++ xs.toList.flatMap c.encode).length = _
  rw [List.length_append, length_littleEndian]

/-- The encoding of an element is within that of the sequence. -/
theorem length_encode_le_of_mem (c : Codec α) {xs : Array α} {x : α} (h : x ∈ xs.toList) :
    (c.encode x).length ≤ ((seq c).encode xs).length := by
  have hle := (List.sublist_flatten_of_mem (List.mem_map_of_mem (f := c.encode) h)).length_le
  rw [length_encode_seq, List.flatMap_def]
  omega

/-- A sequence of values that are not empty takes as many bytes as it has elements. -/
theorem Visible.size_le {c : Codec α} (hc : c.Visible) (xs : Array α) :
    xs.size ≤ ((seq c).encode xs).length := by
  have hlist : ∀ l : List α, l.length ≤ (l.flatMap c.encode).length := by
    intro l
    induction l with
    | nil => exact Nat.le_refl 0
    | cons x l ih =>
      have := hc x
      rw [List.flatMap_cons, List.length_append, List.length_cons]
      omega
  have := hlist xs.toList
  rw [length_encode_seq, ← Array.length_toList]
  omega

/-- A sequence is never empty, because of its length. -/
theorem visible_seq (c : Codec α) : (seq c).Visible := by
  intro xs
  rw [length_encode_seq]
  omega

/-- A sequence is read back when its elements are. -/
theorem Faithful.seq {c : Codec α} (hc : c.Visible) {xs : Array α}
    (h : ∀ x ∈ xs.toList, c.Faithful x) : (seq c).Faithful xs := by
  intro hlen rest
  have hsize := hc.size_le xs
  have hcount : xs.size < wordRange 8 := Nat.lt_of_le_of_lt hsize hlen
  have helements : ∀ x ∈ xs.toList, ∀ rest, c.decode (c.encode x ++ rest) = .ok (x, rest) := by
    intro x hx
    exact h x hx (Nat.lt_of_le_of_lt (length_encode_le_of_mem c hx) hlen)
  have hitems := items_flatMap xs.toList #[] rest helements
  rw [Array.length_toList, Array.toArray_toList, Array.empty_append] at hitems
  show ((word 8).decode (littleEndian 8 xs.size ++ xs.toList.flatMap c.encode ++ rest) >>=
    fun p => items c.decode p.1 #[] p.2) = _
  rw [List.append_assoc, decode_word hcount, ok_bind]
  exact hitems

/-- A value that may be missing is read back when it is read back where there is one. -/
theorem Faithful.optional {c : Codec α} {o : Option α} (h : ∀ a, o = some a → c.Faithful a) :
    (optional c).Faithful o := by
  intro hlen rest
  cases o with
  | none => rfl
  | some a =>
    have hlen' : (1 :: c.encode a : List UInt8).length < lengthBound := hlen
    rw [List.length_cons] at hlen'
    show (c.decode (c.encode a ++ rest) >>= fun p => .ok (some p.1, p.2)) = _
    rw [h a rfl (by omega), ok_bind]

/-! ## Values -/

/-- A byte is read back. -/
theorem faithful_byte (b : UInt8) : byte.Faithful b := by
  have hword : (word 1).Faithful b.toNat := faithful_word b.toNat_lt
  exact hword.map UInt8.ofNat_toNat

/-- A word of 16 bits is read back. -/
theorem faithful_word16 (w : UInt16) : word16.Faithful w := by
  have hword : (word 2).Faithful w.toNat := faithful_word w.toNat_lt
  exact hword.map UInt16.ofNat_toNat

/-- A word of 64 bits is read back. -/
theorem faithful_word64 (w : UInt64) : word64.Faithful w := by
  have hword : (word 8).Faithful w.toNat := faithful_word w.toNat_lt
  exact hword.map UInt64.ofNat_toNat

/-- The bits of a log probability are read back. -/
theorem faithful_logProb (x : LogProb) : logProb.Faithful x := by
  have hword : (word 4).Faithful x.bits.toNat := faithful_word x.bits.toNat_lt
  have hback : LogProb.mk (UInt32.ofNat x.bits.toNat) = x := congrArg LogProb.mk UInt32.ofNat_toNat
  exact Faithful.map (b := x) hword hback

/-- Weights are read back. -/
theorem faithful_weights (w : Weights) : weights.Faithful w := by
  have hpair : (logProb.pair logProb).Faithful (w.prob, w.backoff) :=
    Faithful.pair (faithful_logProb w.prob) (faithful_logProb w.backoff)
  exact Faithful.map (b := w) hpair rfl

/-- Text is read back. -/
theorem faithful_text (s : String) : text.Faithful s := by
  intro hlen rest
  have hbytes : (littleEndian 8 (Text.Utf8.encode s.toList).length ++
      Text.Utf8.encode s.toList).length < lengthBound := hlen
  rw [List.length_append, length_littleEndian] at hbytes
  have hcount : (Text.Utf8.encode s.toList).length < wordRange 8 := by
    show _ < lengthBound
    omega
  unfold text
  dsimp only
  rw [List.append_assoc, decode_word hcount, ok_bind]
  dsimp only
  rw [List.take_left' rfl, if_neg (Nat.lt_irrefl _), Text.Utf8.decode_encode]
  dsimp only
  rw [List.drop_left' rfl, String.ofList_toList]

/-- Weights are not empty. -/
theorem visible_weights : weights.Visible :=
  (((visible_word (by decide)).map _ _).pair _).map _ _

/-- Text is not empty, because of its length. -/
theorem visible_text : text.Visible := by
  intro s
  show 0 < (littleEndian 8 _ ++ _).length
  rw [List.length_append, length_littleEndian]
  omega

end Codec

end BackoffLM
