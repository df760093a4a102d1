import BackoffLM.Index.Values
import BackoffLM.Proofs.Files.Codec
import BackoffLM.Proofs.Pointers
import BackoffLM.Proofs.Quantization.Bins

/-!
# Pointers and weights in files

What a trie of a file owes to the pointers and the weights that its levels are made of. Both are
read back as they were built (`StoredPointers`, `StoredWeights`), and both pass the checks of the
reader: pointers that were built from offsets which never decrease and stay within the children
(`PointerArray.validate_ofOffsets`), and weights of at most 8 bits.
-/

namespace BackoffLM

open Codec

/-! ## Pointers -/

/-- Pointers that a file gives back as they were built. -/
class StoredPointers (P : Type) [PointerArray P] : Prop extends LawfulPointers P where
  faithful_ofOffsets : ∀ offsets : List Nat, offsets.Pairwise (· ≤ ·) →
    (∀ o ∈ offsets, o < lengthBound) →
      (PointerArray.codec : Codec P).Faithful (PointerArray.ofOffsets offsets)

instance : StoredPointers PlainPointers where
  faithful_ofOffsets offsets _ hbound := by
    refine Faithful.map (Faithful.seq (visible_word (by decide)) fun o ho => ?_) rfl
    exact faithful_word (hbound o (by simpa [PointerArray.ofOffsets] using ho))

/-- The places of high parts are places of offsets. -/
theorem PackedPointers.Packs.highStarts_le {p : PackedPointers} {offsets : List Nat}
    (hp : p.Packs offsets) : ∀ start ∈ p.highStarts.toList, start ≤ p.low.size := by
  intro start hstart
  obtain ⟨h, hh, rfl⟩ := List.getElem_of_mem hstart
  rw [Array.length_toList] at hh
  have hsize := congrArg List.length hp.low
  rw [Array.length_toList, List.length_map] at hsize
  rw [Array.getElem_toList, hp.starts h hh, hsize]
  exact List.countP_le_length

instance : StoredPointers PackedPointers where
  faithful_ofOffsets offsets hsorted _ := by
    intro hlen
    have hp : (PointerArray.ofOffsets offsets : PackedPointers).Packs offsets :=
      PackedPointers.packs_foldl_push PackedPointers.packs_empty offsets
        (PackedPointers.highsSorted_of_pairwise hsorted)
    generalize (PointerArray.ofOffsets offsets : PackedPointers) = p at hp hlen ⊢
    -- The places are within the length of the encoding, which a word can hold.
    have hbound : ∀ start ∈ p.highStarts.toList, (word 8).Faithful start := by
      intro start hstart
      have hlt : start < lengthBound :=
        calc start
          _ ≤ p.low.size := hp.highStarts_le start hstart
          _ ≤ ((Codec.seq word16).encode p.low).length :=
            Visible.size_le ((visible_word (by decide)).map _ _) p.low
          _ ≤ (((Codec.seq word16).pair (.seq (word 8))).encode (p.low, p.highStarts)).length :=
            length_encode_fst_le _ _ (p.low, p.highStarts)
          _ < lengthBound := hlen
      exact faithful_word hlt
    exact Faithful.map (Faithful.pair (p := (p.low, p.highStarts))
      (Faithful.seq ((visible_word (by decide)).map _ _) fun w _ => faithful_word16 w)
      (Faithful.seq (visible_word (by decide)) hbound)) rfl hlen

namespace PointerArray

variable {P : Type} [PointerArray P] [LawfulPointers P]

/-- A pass over the first places of pointers ends with the offset of the last of them. -/
theorem foldlM_ofOffsets {offsets : List Nat} {children : Nat} (hsorted : offsets.Pairwise (· ≤ ·))
    (hbound : ∀ o ∈ offsets, o ≤ children) {n : Nat} (hn : n ≤ offsets.length) :
    (List.range n).foldlM (m := Except Flaw) (fun least i =>
      let offset := get (ofOffsets offsets : P) i
      if offset < least ∨ children < offset then .error (.pointerOrder i) else .ok offset) 0 =
        .ok (if n = 0 then 0 else offsets.getD (n - 1) 0) := by
  induction n with
  | zero => rfl
  | succ n ih =>
    have hget : get (ofOffsets offsets : P) n = offsets[n] :=
      LawfulPointers.get_ofOffsets offsets hsorted n hn
    have hle : offsets[n] ≤ children := hbound _ (List.getElem_mem _)
    have hgetD : ∀ i (hi : i < offsets.length), offsets.getD i 0 = offsets[i] := by
      intro i hi
      rw [List.getD_eq_getElem?_getD, List.getElem?_eq_getElem hi, Option.getD_some]
    have hleast : (if n = 0 then 0 else offsets.getD (n - 1) 0) ≤ offsets[n] := by
      split
      · exact Nat.zero_le _
      · rw [hgetD (n - 1) (by omega)]
        exact List.pairwise_iff_getElem.mp hsorted (n - 1) n _ _ (by omega)
    rw [List.range_succ, List.foldlM_append, ih (by omega), ok_bind, List.foldlM_cons, hget,
      if_neg (by omega), ok_bind, if_neg (by omega), Nat.add_sub_cancel, hgetD n hn]
    rfl

/-- Pointers from offsets that never decrease and stay within the children pass the check. -/
theorem validate_ofOffsets {offsets : List Nat} {parents children : Nat}
    (hlength : offsets.length = parents + 1) (hsorted : offsets.Pairwise (· ≤ ·))
    (hbound : ∀ o ∈ offsets, o ≤ children) :
    validate (ofOffsets offsets : P) parents children = .ok () := by
  have hsize : size (ofOffsets offsets : P) = offsets.length :=
    LawfulPointers.size_ofOffsets offsets
  unfold validate
  rw [if_neg (by omega), hsize, foldlM_ofOffsets hsorted hbound (Nat.le_refl _), ok_bind]

end PointerArray

/-! ## Weights -/

/-- Weights that a file gives back as they were built. -/
class StoredWeights (V : Type) [WeightStore V] : Prop where
  size_ofWeights : ∀ (bits : Nat) (weights : List Weights) (hasBackoff : Bool),
    WeightStore.size (WeightStore.ofWeights bits weights hasBackoff : V) = weights.length
  validate_ofWeights : ∀ (bits : Nat) (weights : List Weights) (hasBackoff : Bool), bits ≤ 8 →
    WeightStore.validate (WeightStore.ofWeights bits weights hasBackoff : V) = .ok ()
  faithful : ∀ values : V, (WeightStore.codec : Codec V).Faithful values

instance : StoredWeights FloatValues where
  size_ofWeights bits weights hasBackoff := by
    show ((weights.map (Weights.keepBackoff hasBackoff)).toArray).size = weights.length
    rw [List.size_toArray, List.length_map]
  validate_ofWeights _ _ _ _ := rfl
  faithful _ := Faithful.map (Faithful.seq visible_weights fun w _ => faithful_weights w) rfl

/-- Centres are read back. -/
theorem Bins.faithful_codec (b : Bins) : Bins.codec.Faithful b :=
  Faithful.map (Faithful.seq ((visible_word (by decide)).map _ _) fun x _ => faithful_logProb x) rfl

instance : StoredWeights QuantValues where
  size_ofWeights bits weights hasBackoff := by
    show ((weights.map _).toArray).size = weights.length
    rw [List.size_toArray, List.length_map]
  validate_ofWeights bits weights hasBackoff hbits := by
    have hpow : Numeral.pow2 bits ≤ 256 := Nat.pow_le_pow_right (by decide) hbits
    have hprob := Bins.size_train_le (weights.map Weights.prob) (Numeral.pow2 bits)
    -- One code fewer is left for the backoffs, as zero has its own.
    have hbackoff : (QuantValues.ofWeights bits weights hasBackoff).backoff.size ≤ 255 := by
      unfold QuantValues.ofWeights
      dsimp only
      split
      · refine Nat.le_trans (Bins.size_train_le _ _) ?_
        omega
      · exact Nat.zero_le _
    show (if 256 < (Bins.train _ _).size ∨ 255 < (QuantValues.ofWeights bits weights
      hasBackoff).backoff.size then _ else _) = _
    exact if_neg (by omega)
  faithful values :=
    Faithful.map (Faithful.pair (p := ((values.prob, values.backoff), values.codes))
      (Faithful.pair (p := (values.prob, values.backoff)) (Bins.faithful_codec _)
        (Bins.faithful_codec _))
      (Faithful.seq (((visible_word (by decide)).map _ _).pair _) fun code _ =>
        Faithful.pair (faithful_byte _) (faithful_byte _))) rfl

end BackoffLM
