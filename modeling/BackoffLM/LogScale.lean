import BackoffLM.LogProb

/-!
# Between probabilities and their logarithms

Reports give probabilities beside base-ten logarithms, and the perplexity of a sentence, which is
the inverse of the geometric mean of its words' probabilities. A logarithm of -99 stands for
probability zero.
-/

namespace BackoffLM.LogScale

/-- The logarithm that stands for probability zero. -/
def logZero : Float := -99.0

/-- The natural logarithm of ten, in double precision. -/
def lnTen : Float := Float.ofBits 0x40026BB1BBB55516

/-- The probability with a logarithm. -/
def toProb (logProb : Float) : Float :=
  if logProb ≤ logZero then 0.0 else Float.pow 10.0 logProb

/-- The logarithm of a probability. -/
def ofProb (prob : Float) : Float :=
  if prob == 0.0 then logZero else Float.log10 prob

/-- The perplexity for a mean logarithm. -/
def perplexity (logProb : Float) : Float := Float.exp (-logProb * lnTen)

end BackoffLM.LogScale
