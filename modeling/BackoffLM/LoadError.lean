import BackoffLM.Ngram
import BackoffLM.Text.Utf8

/-!
# Why a model file is refused

Each stage of loading has its own causes: the file system, the text formats with the line at fault,
the header of a binary file, the encoding of its payload, and the consistency of what was decoded.
`LoadError.message` words them all.
-/

namespace BackoffLM

/-- Why a file could not be read. -/
inductive FileFault where
  | missing
  | isDirectory
  | notDirectory
  | notMappable
  | nameTooLong
  | notText
  | emptyName
  | nulInName
  /-- A cause that the operating system words. -/
  | other (text : String)
  deriving DecidableEq, Repr

/-- The wording of a fault. -/
def FileFault.message : FileFault → String
  | .missing => "No such file or directory (os error 2)"
  | .isDirectory => "Is a directory (os error 21)"
  | .notDirectory => "Not a directory (os error 20)"
  | .notMappable => "No such device (os error 19)"
  | .nameTooLong => "File name too long (os error 36)"
  | .notText => "stream did not contain valid UTF-8"
  | .emptyName => "empty file name"
  | .nulInName => "file name contained an unexpected NUL byte"
  | .other text => text

/-- Why a line of ARPA text is refused. -/
inductive ArpaFault where
  | badCountLine (text : String)
  | badOrder (reason : Numeral.IntegerFault)
  | badCount (reason : Numeral.IntegerFault)
  | orderOutOfTurn (expected found : Nat)
  | noCounts
  | unexpectedLine (text : String)
  | countMismatch (order declared found : Nat)
  | endTooEarly (order expected : Nat)
  | unexpectedHeader (text : String)
  | fieldCount (order found : Nat)
  | badProbability
  | badBackoff
  | duplicateUnigram (word : String)
  | unknownWord (word : String)
  | duplicateNgram (order : Nat) (words : String)
  | missingData
  | missingEnd
  deriving DecidableEq, Repr

/-- The wording of a fault. -/
def ArpaFault.message : ArpaFault → String
  | .badCountLine text => s!"bad count line '{text}'"
  | .badOrder reason => s!"invalid order: {reason.message}"
  | .badCount reason => s!"invalid count: {reason.message}"
  | .orderOutOfTurn expected found => s!"expected ngram {expected} count, got ngram {found}"
  | .noCounts => "no ngram counts in \\data\\ section"
  | .unexpectedLine text => s!"unexpected line '{text}'"
  | .countMismatch order declared found =>
    s!"{order}-grams: declared {declared}, found {found}"
  | .endTooEarly order expected => s!"\\end\\ after {order}-grams, expected {expected}"
  | .unexpectedHeader text => s!"unexpected header '{text}'"
  | .fieldCount order found => s!"expected {order + 1} or {order + 2} fields, got {found}"
  | .badProbability => "invalid probability: invalid float literal"
  | .badBackoff => "invalid backoff: invalid float literal"
  | .duplicateUnigram word => s!"duplicate unigram '{word}'"
  | .unknownWord word => s!"'{word}' is not in the unigram section"
  | .duplicateNgram order words => s!"duplicate {order}-gram '{words}'"
  | .missingData => "missing \\data\\ section"
  | .missingEnd => "missing \\end\\ marker"

/-- Why a line of a count file is refused. -/
inductive CountFault where
  | noMixWeight
  | badMixWeight
  | mixWeightRange
  | noWords
  | badCount (reason : Numeral.IntegerFault)
  | noUnigrams
  deriving DecidableEq, Repr

/-- The wording of a fault. -/
def CountFault.message : CountFault → String
  | .noMixWeight => "mixweight needs a value"
  | .badMixWeight => "invalid mixweight: invalid float literal"
  | .mixWeightRange => "mixweight must be in (0, 1)"
  | .noWords => "count line has no words"
  | .badCount reason => s!"invalid count: {reason.message}"
  | .noUnigrams => "no unigram counts"

/-- Why the bytes of a payload are no encoding. -/
inductive DecodeFault where
  /-- The bytes end inside a number or a tag. -/
  | endOfData
  /-- The bytes end inside a string. -/
  | endOfString
  | badTag (tag : UInt8)
  | badString (fault : Text.Utf8.Fault)
  deriving DecidableEq, Repr

/-- The wording of a fault. -/
def DecodeFault.message : DecodeFault → String
  | .endOfData => "io error: unexpected end of file"
  | .endOfString => "io error: "
  | .badTag tag => s!"tag for enum is not valid, found {tag.toNat}"
  | .badString fault => s!"string is not valid utf8: {fault.message}"

/-- What is inconsistent in a binary file. -/
inductive Flaw where
  | missingMagic
  | payloadLength (expected actual : Nat)
  | kindCode (code : UInt8) (kind : String)
  | orderMismatch (header payload : Nat)
  | countsMismatch
  | vocabularySize (found expected : Nat)
  | unknownNotFirst
  | noUnigrams
  | bucketUse (order used buckets entries : Nat)
  | unigramPointers
  | pointers (order : Nat)
  | valueCount (order : Nat)
  | tooManyBins
  | pointerCount (found parents : Nat)
  | pointerOrder (index : Nat)
  deriving DecidableEq, Repr

/-- The wording of a flaw. -/
def Flaw.message : Flaw → String
  | .missingMagic => "missing binary magic"
  | .payloadLength expected actual => s!"expected {expected} payload bytes, got {actual}"
  | .kindCode code kind => s!"kind code {code.toNat} does not match {kind}"
  | .orderMismatch header payload => s!"header order {header} but payload order {payload}"
  | .countsMismatch => "n-gram counts disagree with header"
  | .vocabularySize found expected => s!"vocabulary has {found} words, expected {expected}"
  | .unknownNotFirst => "vocabulary must start with <unk>"
  | .noUnigrams => "no unigrams"
  | .bucketUse order used buckets entries =>
    s!"{order}-gram table has {used} used buckets of {buckets} for {entries} entries"
  | .unigramPointers => "unigram pointers mismatch"
  | .pointers order => s!"{order}-gram pointers mismatch"
  | .valueCount order => s!"{order}-gram value count"
  | .tooManyBins => "too many quantization bins"
  | .pointerCount found parents => s!"{found} pointers for {parents} nodes"
  | .pointerOrder index => s!"pointer {index} out of order"

/-- Why a model file is refused. -/
inductive LoadError where
  | file (fault : FileFault)
  | arpa (line : Nat) (fault : ArpaFault)
  | counts (line : Nat) (fault : CountFault)
  | shortHeader
  | unsupportedVersion (version : UInt8)
  | unsupportedOrder (order : Nat)
  | checksum (expected actual : UInt32)
  | corrupt (flaw : Flaw)
  | undecodable (fault : DecodeFault)
  deriving DecidableEq, Repr

/-- A word of 32 bits as eight hexadecimal digits. -/
def hexWord (word : UInt32) : String :=
  let digits := Nat.toDigits 16 word.toNat
  String.ofList (List.replicate (8 - digits.length) '0' ++ digits)

/-- The wording of a refusal. -/
def LoadError.message : LoadError → String
  | .file fault => s!"IO error: {fault.message}"
  | .arpa line fault => s!"ARPA line {line}: {fault.message}"
  | .counts line fault => s!"count file line {line}: {fault.message}"
  | .shortHeader => "invalid header (too short)"
  | .unsupportedVersion version => s!"unsupported binary version: {version.toNat}"
  | .unsupportedOrder order => s!"unsupported order {order} (1..={maxOrder} allowed)"
  | .checksum expected actual =>
    s!"payload checksum mismatch (expected 0x{hexWord expected}, got 0x{hexWord actual})"
  | .corrupt flaw => s!"corrupt model: {flaw.message}"
  | .undecodable fault => s!"deserialization error: {fault.message}"

end BackoffLM
