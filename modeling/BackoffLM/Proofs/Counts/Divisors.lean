import BackoffLM.Proofs.Counts.Distribution

/-!
# What an estimate divides by

As `estimate` computes in any kind of number, it also computes the calculation itself: a `Term` over
counts and the weight of longer contexts, of which every estimate is a value (`eval_estimate`). What
is divided by in the calculation can be read off. It is the count of all words with one for each
word and one more, and the count of each context that is mixed in (`divisors_estimate`), which is
the sum in 64 bits over the lines that continue the context. The first is never zero. A context is
mixed in where some line continues it, be it one that counts nothing, and so the count of a context
is zero where all of these do, and also where their sum overflows to zero (`divisors_pos_iff`).
-/

namespace BackoffLM.CountModel

/-! ## Calculations -/

/-- A calculation on counts and the weight of longer contexts. -/
inductive Term where
  | count (n : Nat)
  | weight
  | add (x y : Term)
  | sub (x y : Term)
  | mul (x y : Term)
  | div (x y : Term)

namespace Term

instance : Add Term := ⟨add⟩

instance : Sub Term := ⟨sub⟩

instance : Mul Term := ⟨mul⟩

instance : Div Term := ⟨div⟩

/-- The value of a calculation in some kind of number. -/
def eval {α : Type} [Add α] [Sub α] [Mul α] [Div α] (ofCount : Nat → α) (mixWeight : α) : Term → α
  | count n => ofCount n
  | weight => mixWeight
  | add x y => x.eval ofCount mixWeight + y.eval ofCount mixWeight
  | sub x y => x.eval ofCount mixWeight - y.eval ofCount mixWeight
  | mul x y => x.eval ofCount mixWeight * y.eval ofCount mixWeight
  | div x y => x.eval ofCount mixWeight / y.eval ofCount mixWeight

/-- What a calculation divides by. -/
def divisors : Term → List Term
  | count _ | weight => []
  | add x y | sub x y | mul x y => x.divisors ++ y.divisors
  | div x y => y :: (x.divisors ++ y.divisors)

end Term

variable {m : CountModel} {lines : List (List String × Nat)}

/-! ## Estimates are values of their calculations -/

section

variable {α : Type} [Add α] [Sub α] [Mul α] [Div α] (ofCount : Nat → α) (weight : α)

theorem eval_estimateAlone (n : Option UInt64) :
    (m.estimateAlone Term.count n).eval ofCount weight = m.estimateAlone ofCount n := by
  cases n <;> rfl

theorem eval_mixWords (word : String) (history older : List String) (shorter : Term) :
    (m.mixWords Term.count Term.weight word history shorter older).eval ofCount weight =
      m.mixWords ofCount weight word history (shorter.eval ofCount weight) older := by
  induction older generalizing history shorter with
  | nil => rfl
  | cons newest older ih =>
    rw [mixWords, mixWords]
    cases m.contextOf? (newest :: history) with
    | none => rfl
    | some total => exact ih (newest :: history) _

/-- An estimate is the value of its calculation, in whatever numbers it is computed. -/
theorem eval_estimate (word : String) (context : List String) :
    (m.estimate Term.count Term.weight word context).eval ofCount weight =
      m.estimate ofCount weight word context := by
  by_cases hword : word ∈ m.ids
  · rw [estimate_of_mem _ _ hword, estimate_of_mem _ _ hword, eval_mixWords, eval_estimateAlone]
  · rw [estimate_of_notMem _ _ hword, estimate_of_notMem _ _ hword, eval_estimateAlone]

end

/-! ## Their divisors -/

/-- The count of all words with one for each word and one more. -/
def allCount (m : CountModel) : Term :=
  .count m.total.toNat + .count m.ids.size + .count 1

theorem divisors_estimateAlone (n : Option UInt64) :
    (m.estimateAlone Term.count n).divisors = [m.allCount] := by
  cases n <;> rfl

/-- Each context that is mixed in divides by its count. -/
theorem divisors_mixWords (word : String) (history older : List String) (shorter : Term) :
    (m.mixWords Term.count Term.weight word history shorter older).divisors =
      (m.consulted history older).reverse.map (fun total => .count total.toNat) ++
        shorter.divisors := by
  induction older generalizing history shorter with
  | nil => rfl
  | cons newest older ih =>
    rw [mixWords, consulted]
    cases m.contextOf? (newest :: history) with
    | none => rfl
    | some total =>
      dsimp only
      rw [ih, List.reverse_cons, List.map_append, List.append_assoc]
      rfl

/-- What the estimate of a word divides by. -/
theorem divisors_estimate (word : String) (context : List String) :
    (m.estimate Term.count Term.weight word context).divisors =
      (if word ∈ m.ids then
        (m.consulted [] (context.take (m.order - 1))).reverse.map fun total => .count total.toNat
        else []) ++ [m.allCount] := by
  by_cases hword : word ∈ m.ids
  · rw [estimate_of_mem _ _ hword, divisors_mixWords, divisors_estimateAlone, if_pos hword]
  · rw [estimate_of_notMem _ _ hword, divisors_estimateAlone, if_neg hword, List.nil_append]

/-- The count of all words is never zero, with the one more. -/
theorem eval_allCount_pos (weight : ℚ) : 0 < m.allCount.eval (fun n => (n : ℚ)) weight := by
  show (0 : ℚ) < m.total.toNat + m.ids.size + (1 : ℕ)
  positivity

/-! ## Divisors that are zero -/

/-- A sum over lines is positive exactly when one of them counts something. -/
theorem amount_pos_iff (p : List String → Prop) [DecidablePred p] :
    0 < amount p lines ↔ ∃ line ∈ lines, p line.1 ∧ 0 < line.2 := by
  have hzero : amount p lines = 0 ↔ ∀ line ∈ lines, p line.1 → line.2 = 0 := by
    rw [amount, List.sum_eq_zero_iff, List.forall_mem_map]
    refine forall₂_congr fun line _ => ?_
    by_cases hp : p line.1 <;> simp [hp]
  rw [Nat.pos_iff_ne_zero, ne_eq, hzero]
  push Not
  simp only [Nat.pos_iff_ne_zero]

/-- A sum is positive in 64 bits unless these hold it as zero. -/
theorem toNat_ofNat_pos_iff {n : Nat} : 0 < (UInt64.ofNat n).toNat ↔ ¬ 2 ^ 64 ∣ n := by
  rw [Nat.pos_iff_ne_zero, ← UInt64.toNat_zero, ne_eq, UInt64.toNat_inj, ofNat_eq_zero_iff]

/-- A sum that fits in 64 bits is zero there only if it is zero. -/
theorem not_dvd_amount_iff {p : List String → Prop} [DecidablePred p]
    (hfits : amount p lines < 2 ^ 64) :
    ¬ 2 ^ 64 ∣ amount p lines ↔ ∃ line ∈ lines, p line.1 ∧ 0 < line.2 := by
  rw [← amount_pos_iff, Nat.pos_iff_ne_zero]
  refine not_congr ⟨fun hdvd => Nat.eq_zero_of_dvd_of_lt hdvd hfits, fun hzero => ?_⟩
  rw [hzero]
  exact Nat.dvd_zero _

/-- In exact fractions no divisor is zero exactly if no context that is mixed in has a sum that 64
bits hold as zero. -/
theorem Holds.forall_divisors_pos (h : m.Holds lines) (word : String) (context : List String)
    (weight : ℚ) :
    (∀ divisor ∈ (m.estimate Term.count Term.weight word context).divisors,
        0 < divisor.eval (fun n => (n : ℚ)) weight) ↔
      ((∃ line ∈ lines, word ∈ line.1) →
        ∀ history ∈ continued lines [] (context.take (m.order - 1)),
          ¬ 2 ^ 64 ∣ amount (Continues history) lines) := by
  have hall := eval_allCount_pos (m := m) weight
  rw [divisors_estimate, List.forall_mem_append, List.forall_mem_singleton, and_iff_left hall,
    ← h.mem_ids_iff]
  by_cases hword : word ∈ m.ids
  · rw [if_pos hword, forall_prop_of_true hword, h.consulted_eq, List.forall_mem_map]
    simp only [List.mem_reverse, List.forall_mem_map, Term.eval, Nat.cast_pos,
      toNat_ofNat_pos_iff]
  · rw [if_neg hword, forall_prop_of_false hword]
    exact iff_of_true (fun _ hnone => absurd hnone List.not_mem_nil) trivial

/-- In exact fractions a count model divides by no zero, for a word after a context, exactly if the
sum over the lines that continue each context that is mixed in is no multiple of 2^64. Where these
sums fit in 64 bits, that is to say that one of the lines counts something, as it is when all lines
of more than one word do. -/
theorem divisors_pos_iff {bytes : List UInt8} {order : Nat} (h : ofBytes bytes order = .ok m)
    {entries : List Entry} (hentries : entriesOf bytes = .ok entries) (word : String)
    (context : List String) :
    let lines := kept order entries
    let mixed := continued lines [] (context.take (max order 1 - 1))
    let term := m.estimate Term.count Term.weight word context
    m.logProb word context = .ofDouble (Float.log10 (term.eval toDouble m.mixWeight)) ∧
      ∀ weight : ℚ,
        let safe := ∀ divisor ∈ term.divisors, 0 < divisor.eval (fun n => (n : ℚ)) weight
        (safe ↔ ((∃ line ∈ lines, word ∈ line.1) →
          ∀ history ∈ mixed, ¬ 2 ^ 64 ∣ amount (Continues history) lines)) ∧
        ((∀ history ∈ mixed, amount (Continues history) lines < 2 ^ 64) →
          (safe ↔ ((∃ line ∈ lines, word ∈ line.1) →
            ∀ history ∈ mixed, ∃ line ∈ lines, Continues history line.1 ∧ 0 < line.2)) ∧
          ((∀ line ∈ lines, line.1.length ≠ 1 → 0 < line.2) → safe)) := by
  intro lines mixed term
  obtain ⟨read, hread, hholds, horder, -⟩ := exists_entries_of_ofBytes h
  obtain rfl : read = entries := Except.ok.inj (hread.symm.trans hentries)
  have hpos := hholds.forall_divisors_pos word context
  rw [horder] at hpos
  refine ⟨by rw [eval_estimate]; rfl, fun weight => ?_⟩
  intro safe
  refine ⟨hpos weight, fun hfits => ?_⟩
  have hsafe : safe ↔ ((∃ line ∈ lines, word ∈ line.1) →
      ∀ history ∈ mixed, ∃ line ∈ lines, Continues history line.1 ∧ 0 < line.2) :=
    (hpos weight).trans (imp_congr_right fun _ => forall₂_congr fun history hhistory =>
      not_dvd_amount_iff (hfits history hhistory))
  refine ⟨hsafe, fun hcount => hsafe.mpr fun _ history hhistory => ?_⟩
  obtain ⟨line, hline, hcontinues⟩ := exists_line_of_mem_continued hhistory
  exact ⟨line, hline, hcontinues, hcount line hline hcontinues.1⟩

/-- A line counts `a a` no times, and after `a` the estimate of `a` divides by the zero that this
adds up to. -/
theorem divisors_pos_iff_zero :
    let entries := [.ngram ["a"] 1, .ngram ["a", "a"] 0]
    ∃ m, ofBytes (Text.Utf8.encode "a 1\na a 0\n".toList) 2 = .ok m ∧
      entriesOf (Text.Utf8.encode "a 1\na a 0\n".toList) = .ok entries ∧
      ¬ ∀ divisor ∈ (m.estimate Term.count Term.weight "a" ["a"]).divisors,
        0 < divisor.eval (fun n => (n : ℚ)) (1 / 2) := by
  intro entries
  have hread : entriesOf (Text.Utf8.encode "a 1\na a 0\n".toList) = .ok entries := rfl
  obtain ⟨m, hm⟩ := exists_ofBytes_of_entries hread 2 (by decide)
  refine ⟨m, hm, hread, fun hpos => ?_⟩
  have hsum := (((divisors_pos_iff hm hread "a" ["a"]).2 (1 / 2)).1.mp hpos) (by decide) ["a"]
    (by decide)
  exact absurd hsum (by decide)

end BackoffLM.CountModel
