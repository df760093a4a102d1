import BackoffLM.Index.Probing
import Mathlib.Tactic.Common

/-!
# A table of buckets is a map

The search for a key stops at the first bucket, from the key's own one on and around the table, that
holds the key or is empty (`seek_eq_some_iff`). In a table with an empty bucket it always stops
(`place_isSome`). A table is `Placed` when the search for every key that it holds stops where the
key stands; then `find?` gives the weights of exactly the keys that the table holds
(`find?_eq_some_iff`). Insertion keeps a table so, as it turns no bucket empty and puts the new key
where its search stops, and changes the weights of the new key only (`find?_insert`). So the table
of some n-grams finds under a hash the last n-gram that has it (`find?_ofEntries`).
-/

namespace BackoffLM.Probing.Table

/-- Whether the search for a key stops at a bucket. -/
def Stops (buckets : Array Bucket) (key : UInt64) (i : Nat) : Prop :=
  ∃ b, buckets[i]? = some b ∧ (b.key = key ∨ b.key = emptyKey)

section Seek

variable {buckets : Array Bucket} {key : UInt64}

/-- The search ends where it stops. -/
theorem seek_of_stops {i : Nat} (h : Stops buckets key i) (steps : Nat) :
    seek buckets key (steps + 1) i = some i := by
  obtain ⟨b, hb, hkey⟩ := h
  rw [seek, hb]
  exact if_pos hkey

/-- The search goes on to the next bucket. -/
theorem seek_of_not_stops {i : Nat} (hi : i < buckets.size) (h : ¬ Stops buckets key i)
    (steps : Nat) :
    seek buckets key (steps + 1) i = seek buckets key steps ((i + 1) % buckets.size) := by
  have hb : buckets[i]? = some buckets[i] := Array.getElem?_eq_getElem hi
  rw [seek, hb]
  exact if_neg fun hkey => h ⟨buckets[i], hb, hkey⟩

/-- The bucket after the next ones of the next one. -/
theorem next_add (i n d : Nat) : ((i + 1) % n + d) % n = (i + (d + 1)) % n := by
  rw [Nat.mod_add_mod, Nat.add_assoc, Nat.add_comm 1 d]

/-- The search ends at the first bucket within its steps where it stops. -/
theorem seek_eq_some_iff {steps i j : Nat} (hi : i < buckets.size) :
    seek buckets key steps i = some j ↔
      ∃ d < steps, j = (i + d) % buckets.size ∧ Stops buckets key j ∧
        ∀ e < d, ¬ Stops buckets key ((i + e) % buckets.size) := by
  induction steps generalizing i with
  | zero => simp [seek]
  | succ steps ih =>
    have hhere : (i + 0) % buckets.size = i := Nat.mod_eq_of_lt hi
    by_cases hstop : Stops buckets key i
    · -- It stops here, so no later bucket is the first.
      rw [seek_of_stops hstop]
      constructor
      · intro h
        rw [← Option.some.inj h]
        exact ⟨0, by omega, hhere.symm, hstop, by omega⟩
      · rintro ⟨d, -, rfl, -, hbefore⟩
        have hd : d = 0 := by
          by_contra hne
          exact hbefore 0 (by omega) (by rw [hhere]; exact hstop)
        rw [hd, hhere]
    · -- What is `d` steps from the next bucket is `d + 1` from this one.
      rw [seek_of_not_stops hi hstop, ih (Nat.mod_lt _ (by omega))]
      constructor
      · rintro ⟨d, hd, hj, hat, hbefore⟩
        refine ⟨d + 1, by omega, by rw [hj, next_add], hat, fun e he => ?_⟩
        cases e with
        | zero =>
          rw [hhere]
          exact hstop
        | succ e =>
          rw [← next_add]
          exact hbefore e (by omega)
      · rintro ⟨d, hd, hj, hat, hbefore⟩
        cases d with
        | zero =>
          rw [hj, hhere] at hat
          exact absurd hat hstop
        | succ d =>
          refine ⟨d, by omega, by rw [hj, next_add], hat, fun e he => ?_⟩
          rw [next_add]
          exact hbefore (e + 1) (by omega)

/-- The search ends when there is a bucket within its steps where it stops. -/
theorem seek_isSome {steps i d : Nat} (hi : i < buckets.size) (hd : d < steps)
    (h : Stops buckets key ((i + d) % buckets.size)) :
    (seek buckets key steps i).isSome = true := by
  induction steps generalizing i d with
  | zero => omega
  | succ steps ih =>
    by_cases hstop : Stops buckets key i
    · rw [seek_of_stops hstop]
      rfl
    · rw [seek_of_not_stops hi hstop]
      cases d with
      | zero =>
        rw [Nat.add_zero, Nat.mod_eq_of_lt hi] at h
        exact absurd h hstop
      | succ d =>
        have hd' : d < steps := by omega
        exact ih (Nat.mod_lt _ (by omega)) hd' (by rw [next_add]; exact h)

end Seek

variable {t : Table} {key : UInt64}

/-- The bucket from which a key is looked for. -/
def home (t : Table) (key : UInt64) : Nat := key.toNat % t.buckets.size

/-- The place of a key is the first bucket from its own on where the search stops. -/
theorem place_eq_some_iff (hpos : 0 < t.buckets.size) {j : Nat} :
    t.place key = some j ↔
      ∃ d < t.buckets.size, j = (t.home key + d) % t.buckets.size ∧ Stops t.buckets key j ∧
        ∀ e < d, ¬ Stops t.buckets key ((t.home key + e) % t.buckets.size) :=
  seek_eq_some_iff (Nat.mod_lt _ hpos)

/-- Around a table every bucket is reached. -/
theorem exists_steps {n start i : Nat} (hstart : start < n) (hi : i < n) :
    ∃ d < n, (start + d) % n = i := by
  rcases Nat.lt_or_ge i start with hlt | hle
  · refine ⟨i + n - start, by omega, ?_⟩
    rw [show start + (i + n - start) = i + n by omega, Nat.add_mod_right, Nat.mod_eq_of_lt hi]
  · exact ⟨i - start, by omega, by rw [Nat.add_sub_cancel' hle, Nat.mod_eq_of_lt hi]⟩

/-- With an empty bucket every search ends. -/
theorem place_isSome {i : Nat} {b : Bucket} (hb : t.buckets[i]? = some b)
    (hempty : b.key = emptyKey) (key : UInt64) : (t.place key).isSome = true := by
  obtain ⟨hi, -⟩ := Array.getElem?_eq_some_iff.mp hb
  have hhome : t.home key < t.buckets.size := Nat.mod_lt _ (by omega)
  obtain ⟨d, hd, hreach⟩ := exists_steps hhome hi
  have hstop : Stops t.buckets key i := ⟨b, hb, Or.inr hempty⟩
  rw [← hreach] at hstop
  exact seek_isSome hhome hd hstop

/-- A table that is not full has an empty bucket. -/
theorem exists_empty (h : t.used < t.buckets.size) :
    ∃ (i : Nat) (b : Bucket), t.buckets[i]? = some b ∧ b.key = emptyKey := by
  by_contra hnone
  -- Without one the buckets in use are all that there are.
  have hall : ∀ b ∈ t.buckets, (b.key != emptyKey) = true := by
    intro b hb
    obtain ⟨i, hi, rfl⟩ := Array.mem_iff_getElem.mp hb
    rw [bne_iff_ne]
    intro hempty
    exact hnone ⟨i, t.buckets[i], Array.getElem?_eq_getElem hi, hempty⟩
  have hfull : t.used = t.buckets.size := Array.countP_eq_size.mpr hall
  omega

/-! ## Lookups -/

/-- The search for every key that a table holds stops where the key stands. -/
def Placed (t : Table) : Prop :=
  ∀ (i : Nat) (b : Bucket), t.buckets[i]? = some b → b.key ≠ emptyKey → t.place b.key = some i

/-- A lookup finds the weights of the keys that a table holds. -/
theorem find?_eq_some_iff (h : t.Placed) (hkey : key ≠ emptyKey) {weights : Weights} :
    t.find? key = some weights ↔ ∃ i : Nat, t.buckets[i]? = some ⟨key, weights⟩ := by
  constructor
  · intro hfind
    unfold find? at hfind
    split at hfind
    · exact absurd hfind (by simp)
    · rename_i i hi
      dsimp only at hfind
      split at hfind
      · rename_i hhas
        -- A place out of range would read an empty bucket, which has not the key.
        have hlt : i < t.buckets.size := by
          by_contra hge
          have hdefault : t.buckets.getD i default = default := by simp [hge]
          rw [hdefault] at hhas
          exact hkey hhas.symm
        refine ⟨i, ?_⟩
        rw [Array.getElem?_eq_getElem hlt]
        have hget : t.buckets.getD i default = t.buckets[i] := by simp [hlt]
        rw [hget] at hhas hfind
        rw [← hhas, ← Option.some.inj hfind]
      · exact absurd hfind (by simp)
  · rintro ⟨i, hi⟩
    have hget : t.buckets.getD i default = ⟨key, weights⟩ := by
      rw [Array.getD_eq_getD_getElem?, hi, Option.getD_some]
    have hplace : t.place key = some i := h i _ hi hkey
    unfold find?
    rw [hplace]
    dsimp only
    rw [hget, if_pos rfl]

/-! ## Insertion -/

/-- The place of a key is a bucket of the table that holds the key or is empty. -/
theorem stops_of_place {i : Nat} (h : t.place key = some i) :
    ∃ hi : i < t.buckets.size, t.buckets[i].key = key ∨ t.buckets[i].key = emptyKey := by
  have hpos : 0 < t.buckets.size := by
    by_contra h0
    have hsize : t.buckets.size = 0 := by omega
    unfold place at h
    rw [hsize, seek] at h
    exact absurd h (by simp)
  obtain ⟨-, -, -, ⟨b, hb, hkey⟩, -⟩ := (place_eq_some_iff hpos).mp h
  obtain ⟨hi, rfl⟩ := Array.getElem?_eq_some_iff.mp hb
  exact ⟨hi, hkey⟩

/-- Insertion changes the bucket at the place of the key. -/
theorem buckets_insert {i : Nat} (h : t.place key = some i) (weights : Weights) :
    (t.insert key weights).buckets = t.buckets.setIfInBounds i ⟨key, weights⟩ := by
  unfold insert
  rw [h]

/-- What a table holds after an insertion. -/
theorem getElem?_buckets_insert {i : Nat} (h : t.place key = some i) (weights : Weights) (j : Nat) :
    (t.insert key weights).buckets[j]? = if i = j then some ⟨key, weights⟩ else t.buckets[j]? := by
  obtain ⟨hi, -⟩ := stops_of_place h
  rw [buckets_insert h, Array.getElem?_setIfInBounds]
  by_cases hij : i = j
  · rw [if_pos hij, if_pos hij, if_pos (by omega)]
  · rw [if_neg hij, if_neg hij]

/-- Insertion keeps the number of buckets. -/
theorem size_buckets_insert (key : UInt64) (weights : Weights) :
    (t.insert key weights).buckets.size = t.buckets.size := by
  unfold insert
  split
  · rfl
  · exact Array.size_setIfInBounds

/-- Insertion takes at most one more bucket into use. -/
theorem used_insert_le (key : UInt64) (weights : Weights) :
    (t.insert key weights).used ≤ t.used + 1 := by
  unfold insert
  split
  · omega
  · rename_i i hplace
    obtain ⟨hi, -⟩ := stops_of_place hplace
    unfold used
    dsimp only
    rw [Array.setIfInBounds, dif_pos hi, Array.countP_set]
    split <;> split <;> omega

/-- A key is found exactly when the search for it stops at a bucket in use. -/
theorem isSome_find?_iff (hkey : key ≠ emptyKey) {i : Nat} (hi : t.place key = some i) :
    (t.find? key).isSome = true ↔ (t.buckets.getD i default).key ≠ emptyKey := by
  obtain ⟨hlt, hstop⟩ := stops_of_place hi
  have hget : t.buckets.getD i default = t.buckets[i] := by simp [hlt]
  have hfind : (t.find? key).isSome = true ↔ t.buckets[i].key = key := by
    unfold find?
    rw [hi]
    dsimp only
    rw [hget]
    split <;> simp [*]
  rw [hfind, hget]
  constructor
  · intro hsame hempty
    exact hkey (hsame.symm.trans hempty)
  · exact hstop.resolve_right

/-- A new key is one entry more, and a key that comes again is none. -/
theorem entries_insert_of_place (hkey : key ≠ emptyKey) {i : Nat} (hi : t.place key = some i)
    (weights : Weights) :
    (t.insert key weights).entries =
      t.entries + if (t.find? key).isSome = true then 0 else 1 := by
  unfold insert
  rw [hi, if_congr (isSome_find?_iff hkey hi) rfl rfl]
  dsimp only
  by_cases hempty : (t.buckets.getD i default).key = emptyKey
  · rw [hempty, if_neg (by decide), if_neg (not_not_intro rfl)]
  · rw [if_pos (bne_iff_ne.mpr hempty), if_pos hempty, Nat.add_zero]

/-- A new key takes a bucket into use, and a key that comes again keeps its own. -/
theorem used_insert_of_place (hkey : key ≠ emptyKey) {i : Nat} (hi : t.place key = some i)
    (weights : Weights) :
    (t.insert key weights).used = t.used + if (t.find? key).isSome = true then 0 else 1 := by
  obtain ⟨hlt, -⟩ := stops_of_place hi
  have hget : t.buckets.getD i default = t.buckets[i] := by simp [hlt]
  unfold used
  rw [buckets_insert hi, Array.setIfInBounds, dif_pos hlt, Array.countP_set,
    if_pos (bne_iff_ne.mpr hkey), if_congr (isSome_find?_iff hkey hi) rfl rfl, hget]
  by_cases hempty : t.buckets[i].key = emptyKey
  · rw [hempty, if_neg (by decide), if_neg (not_not_intro rfl), Nat.sub_zero]
  · have hpos : 0 < t.buckets.countP fun b => b.key != emptyKey :=
      Array.countP_pos_iff.mpr ⟨t.buckets[i], Array.getElem_mem hlt, bne_iff_ne.mpr hempty⟩
    rw [if_pos (bne_iff_ne.mpr hempty), if_pos hempty]
    omega

/-- Where the search for a key went on it still does after an insertion, unless the key itself was
put there. -/
theorem not_stops_insert (hkey : key ≠ emptyKey) {i : Nat} (hi : t.place key = some i)
    (weights : Weights) {k : UInt64} {e : Nat} (hother : e ≠ i ∨ k ≠ key)
    (h : ¬ Stops t.buckets k e) : ¬ Stops (t.insert key weights).buckets k e := by
  rintro ⟨b, hb, hstop⟩
  rw [getElem?_buckets_insert hi] at hb
  split at hb
  · rename_i hie
    rw [← Option.some.inj hb] at hstop
    rcases hstop with hsame | hempty
    · rcases hother with hei | hne
      · exact hei hie.symm
      · exact hne hsame.symm
    · exact hkey hempty
  · exact h ⟨b, hb, hstop⟩

/-- Insertion leaves every key where its search stops. -/
theorem Placed.insert (h : t.Placed) (hkey : key ≠ emptyKey) {i : Nat} (hi : t.place key = some i)
    (weights : Weights) : (t.insert key weights).Placed := by
  obtain ⟨hlt, -⟩ := stops_of_place hi
  have hpos : 0 < t.buckets.size := by omega
  have hsize := size_buckets_insert (t := t) key weights
  have hat := getElem?_buckets_insert hi weights
  intro j b hb hne
  rw [hat] at hb
  rw [place_eq_some_iff (by omega), home, hsize]
  by_cases hij : i = j
  · -- The new key stands where its own search stopped.
    rw [if_pos hij] at hb
    have hbkey : b.key = key := by rw [← Option.some.inj hb]
    rw [hbkey]
    obtain ⟨d, hd, hreach, hstop, hbefore⟩ := (place_eq_some_iff hpos).mp hi
    have hnew : Stops (t.insert key weights).buckets key j :=
      ⟨⟨key, weights⟩, by rw [hat, if_pos hij], Or.inl rfl⟩
    refine ⟨d, hd, by rw [← hij]; exact hreach, hnew, fun e he => ?_⟩
    refine not_stops_insert hkey hi weights (Or.inl fun heq => ?_) (hbefore e he)
    have hpass := hbefore e he
    rw [home, heq] at hpass
    exact hpass hstop
  · rw [if_neg hij] at hb
    have hplace := h j b hb hne
    -- The key of `b` is not the new one, which would stop at the place of `b`.
    have hbkey : b.key ≠ key := by
      intro heq
      rw [heq, hi] at hplace
      exact hij (Option.some.inj hplace)
    obtain ⟨d, hd, hreach, -, hbefore⟩ := (place_eq_some_iff hpos).mp hplace
    have hold : Stops (t.insert key weights).buckets b.key j :=
      ⟨b, by rw [hat, if_neg hij, hb], Or.inl rfl⟩
    exact ⟨d, hd, hreach, hold,
      fun e he => not_stops_insert hkey hi weights (Or.inr hbkey) (hbefore e he)⟩

/-- Insertion sets the weights of the key and of no other. -/
theorem find?_insert (h : t.Placed) (hkey : key ≠ emptyKey) {i : Nat} (hi : t.place key = some i)
    (weights : Weights) {k : UInt64} (hk : k ≠ emptyKey) :
    (t.insert key weights).find? k = if k = key then some weights else t.find? k := by
  obtain ⟨hlt, hwas⟩ := stops_of_place hi
  have hat := getElem?_buckets_insert hi weights
  ext w
  rw [find?_eq_some_iff (h.insert hkey hi weights) hk]
  by_cases hsame : k = key
  · rw [if_pos hsame, hsame]
    constructor
    · rintro ⟨j, hj⟩
      have hplace := h.insert hkey hi weights j _ hj hkey
      -- The place of the key is where it was put, and its search stops at one place only.
      have hnew := h.insert hkey hi weights i ⟨key, weights⟩ (by rw [hat, if_pos rfl]) hkey
      rw [hplace] at hnew
      rw [hat, if_pos (Option.some.inj hnew).symm] at hj
      exact congrArg (Option.map Bucket.weights) hj
    · intro hw
      exact ⟨i, by rw [hat, if_pos rfl, Option.some.inj hw]⟩
  · rw [if_neg hsame, find?_eq_some_iff h hk]
    constructor
    · rintro ⟨j, hj⟩
      rw [hat] at hj
      split at hj
      · exact absurd (congrArg Bucket.key (Option.some.inj hj)).symm hsame
      · exact ⟨j, hj⟩
    · rintro ⟨j, hj⟩
      refine ⟨j, ?_⟩
      rw [hat, if_neg ?_, hj]
      -- Another key does not stand at the place of the new one, where the search for that stopped.
      rintro rfl
      obtain ⟨hi', hb⟩ := Array.getElem?_eq_some_iff.mp hj
      rw [hb] at hwas
      exact hwas.elim hsame hk

/-! ## Tables of n-grams -/

/-- The buckets of an empty table. -/
theorem getElem?_withRoom {n i : Nat} {b : Bucket} (h : (withRoom n).buckets[i]? = some b) :
    b.key = emptyKey := by
  rw [withRoom, Array.getElem?_replicate] at h
  split at h
  · rw [← Option.some.inj h]
    rfl
  · exact absurd h (by simp)

/-- An empty table holds no key. -/
theorem placed_withRoom (n : Nat) : (withRoom n).Placed :=
  fun _ _ hb hne => absurd (getElem?_withRoom hb) hne

/-- An empty table finds nothing. -/
theorem find?_withRoom (n : Nat) (hkey : key ≠ emptyKey) : (withRoom n).find? key = none := by
  rw [Option.eq_none_iff_forall_ne_some]
  intro weights hfind
  obtain ⟨i, hi⟩ := (find?_eq_some_iff (placed_withRoom n) hkey).mp hfind
  exact hkey (getElem?_withRoom hi)

/-- An empty table has no bucket in use. -/
theorem used_withRoom (n : Nat) : (withRoom n).used = 0 := by
  rw [used, Array.countP_eq_zero]
  intro b hb
  obtain ⟨i, hi⟩ := Array.mem_iff_getElem?.mp hb
  rw [getElem?_withRoom hi]
  simp

/-- After inserting n-grams one after another a table finds under a hash the last that has it. -/
theorem find?_foldl_insert (hasBackoff : Bool) {entries : List Entry} (h : t.Placed)
    (hroom : t.used + entries.length < t.buckets.size)
    (hkeys : ∀ e ∈ entries, ngramHash e.words ≠ emptyKey) (hkey : key ≠ emptyKey) :
    (entries.foldl (fun t e => t.insert (ngramHash e.words) (e.weights.keepBackoff hasBackoff))
        t).find? key =
      ((entries.reverse.find? fun e => ngramHash e.words == key).map fun e =>
        e.weights.keepBackoff hasBackoff).or (t.find? key) := by
  induction entries generalizing t with
  | nil => rfl
  | cons e entries ih =>
    rw [List.length_cons] at hroom
    -- There is room for this n-gram, and for the rest after it.
    obtain ⟨i, b, hb, hempty⟩ := exists_empty (t := t) (by omega)
    obtain ⟨j, hj⟩ := Option.isSome_iff_exists.mp (place_isSome hb hempty (ngramHash e.words))
    have hne := hkeys e (by simp)
    have hused := used_insert_le (t := t) (ngramHash e.words) (e.weights.keepBackoff hasBackoff)
    rw [List.foldl_cons, ih (h.insert hne hj _) (by rw [size_buckets_insert]; omega)
      (fun e' he' => hkeys e' (List.mem_cons_of_mem e he')), find?_insert h hne hj _ hkey,
      List.reverse_cons, List.find?_append, Option.map_or, Option.or_assoc]
    congr 1
    -- This n-gram answers for its hash where no later one has it.
    by_cases hsame : key = ngramHash e.words
    · rw [if_pos hsame, List.find?_cons_of_pos (by rw [hsame]; exact beq_self_eq_true _)]
      rfl
    · rw [if_neg hsame, List.find?_cons_of_neg (by simpa using Ne.symm hsame)]
      rfl

/-- The table of some n-grams finds under a hash the last n-gram that has it. -/
theorem find?_ofEntries (hasBackoff : Bool) (entries : Array Entry)
    (hkeys : ∀ e ∈ entries.toList, ngramHash e.words ≠ emptyKey) (hkey : key ≠ emptyKey) :
    (ofEntries hasBackoff entries).find? key =
      (entries.toList.reverse.find? fun e => ngramHash e.words == key).map fun e =>
        e.weights.keepBackoff hasBackoff := by
  have hroom : (withRoom entries.size).used + entries.toList.length <
      (withRoom entries.size).buckets.size := by
    rw [used_withRoom, withRoom, Array.size_replicate, Array.length_toList]
    omega
  rw [ofEntries, ← Array.foldl_toList,
    find?_foldl_insert hasBackoff (placed_withRoom entries.size) hroom hkeys hkey,
    find?_withRoom entries.size hkey, Option.or_none]

end BackoffLM.Probing.Table
