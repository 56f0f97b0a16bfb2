import Mathlib.Analysis.Real.Sqrt
import Tracewake.Localization.Rule
import Tracewake.Recording.Equality

/-!
# Similarity of steps

How alike two steps are, as a weighted sum over their tools, arguments, reasoning and
changed files. The arithmetic is exact: only the cosine of two vectors needs real numbers.
What the interpreter raises on its way is a value of `Failure`.
-/

namespace Tracewake.Alignment

open JsonText Recording
open Tracewake.Localization (Lowercase)

/-- What `step_similarity` and `_score_matrix` raise. -/
inductive Failure where
  /-- `int too large to convert to float`. -/
  | overflowError
  /-- `Exceeds the limit (4300 digits) for integer string conversion`. -/
  | tooManyDigits
  /-- `embedding lengths differ`. -/
  | lengthsDiffer (u v : ℕ)
  /-- `alignment needs an embedder when steps carry reasoning text`. -/
  | needsEmbedder
  /-- `embedder returned ... vectors for ... texts`. -/
  | vectorsMissing (returned expected : ℕ)
  deriving DecidableEq

/-- `SequenceMatcher(None, a, b).ratio()`. -/
class Matcher where
  ratio : Text → Text → ℚ
  ratio_nonneg : ∀ a b, 0 ≤ ratio a b
  ratio_le_one : ∀ a b, ratio a b ≤ 1
  ratio_self : ∀ a, ratio a a = 1

/-- A floating point number as a result of `float`. -/
inductive Converted where
  | finite (x : ℚ)
  | infinite
  | nan
  deriving DecidableEq

/-- What `float` makes of a text, unless it raises `ValueError`. -/
class FloatText where
  float : Text → Option Converted

/-! ## `AlignConfig` -/

/-- `arg_mode`. -/
inductive ArgMode where
  | weighted | targetOnly | strict
  deriving DecidableEq

/-- `AlignConfig`. The weights are those of the hosted profile. -/
structure AlignConfig where
  weightTool : ℚ := 45 / 100
  weightArgs : ℚ := 25 / 100
  weightReasoning : ℚ := 20 / 100
  weightFiles : ℚ := 10 / 100
  weightTarget : ℚ := 70 / 100
  weightArgRest : ℚ := 30 / 100
  gapOpen : ℚ := -1
  gapExtend : ℚ := -2 / 10
  argMode : ArgMode := .weighted

/-- `LINE_FALLOFF`. -/
def lineFalloff : ℚ := 50

/-- `score_from_similarity`. -/
def scoreFromSimilarity (s : ℝ) : ℝ := 2 * s - 1

/-! ## Texts -/

/-- The parts of a path. -/
def pathParts (path : Text) : List Text :=
  (path.splitOn '/').filter fun part => part ≠ []

/-- `path_similarity`. -/
def pathSimilarity (a b : Text) : ℚ :=
  if a = b then 1
  else if a = [] ∨ b = [] then 0
  else
    let pa := pathParts a
    let pb := pathParts b
    if pa = [] ∨ pb = [] then if a = b then 1 else 0
    else
      let common := ((pa.reverse.zip pb.reverse).takeWhile fun p => p.1 = p.2).length
      common / max pa.length pb.length

/-- The characters of `_TOKEN`. -/
def isWordChar (c : Char) : Bool :=
  c.isAlphanum || c = '_' || c = '.' || c = '/' || c = '-'

/-- `_TOKEN.findall`. -/
def findTokens (text : Text) : List Text :=
  (text.splitOnP fun c => !isWordChar c).filter fun token => token ≠ []

/-- The size of the intersection of two sets over that of their union. -/
def jaccard {α : Type} [DecidableEq α] (a b : Finset α) : ℚ :=
  (a ∩ b).card / (a ∪ b).card

/-- `token_jaccard`. -/
def tokenJaccard [Lowercase] (a b : Text) : ℚ :=
  if a = b then 1
  else
    let ta := (findTokens (Lowercase.lower a)).toFinset
    let tb := (findTokens (Lowercase.lower b)).toFinset
    if ta = ∅ ∧ tb = ∅ then 1
    else if ta = ∅ ∨ tb = ∅ then 0
    else jaccard ta tb

/-- `text_similarity`. -/
def textSimilarity [Matcher] (a b : Text) : ℚ :=
  if a = b then 1
  else if a = [] ∨ b = [] then 0
  else Matcher.ratio a b

/-! ## Numbers -/

/-- Why `float` raises. -/
inductive FloatError where
  | typeError | valueError | overflowError
  deriving DecidableEq

/-- The integer is too large for a floating point number: it does not round to less than
`2 ** 1024`. -/
def Overflows (n : ℤ) : Prop := 2 ^ 1024 - 2 ^ 970 ≤ |n|

instance (n : ℤ) : Decidable (Overflows n) := inferInstanceAs (Decidable (_ ≤ _))

section Values

variable {F : Type} [FloatValue F] [FloatText]

/-- `float`. -/
def toFloat : Value F → Except FloatError Converted
  | .bool b => .ok (.finite (if b then 1 else 0))
  | .num (.int n) => if Overflows n then .error .overflowError else .ok (.finite n)
  | .num (.float x) => .ok (.finite (FloatValue.value x))
  | .str text =>
    match FloatText.float text with
    | some x => .ok x
    | none => .error .valueError
  | _ => .error .typeError

/-- `max(0.0, 1.0 - abs(x - y) / LINE_FALLOFF)`. An infinite distance leaves nothing, and
`max` prefers its first argument to what is not a number. -/
def closeness : Converted → Converted → ℚ
  | .finite x, .finite y => max 0 (1 - |x - y| / lineFalloff)
  | _, _ => 0

variable [Python F] [Matcher]

/-- `str`. -/
def toText (v : Value F) : Except Failure Text :=
  if Printable v then .ok (Python.str v) else .error .tooManyDigits

/-- How alike the texts of two values are. -/
def byText (similarity : Text → Text → ℚ) (a b : Value F) : Except Failure ℚ := do
  let left ← toText a
  let right ← toText b
  return similarity left right

/-- `number_similarity`. -/
def numberSimilarity (a b : Value F) : Except Failure ℚ :=
  let converted := do
    let x ← toFloat a
    let y ← toFloat b
    return closeness x y
  match converted with
  | .ok similarity => .ok similarity
  | .error .overflowError => .error .overflowError
  | .error _ => byText textSimilarity a b

variable [Lowercase]

/-- `_value_similarity`. -/
def valueSimilarity (key : Text) (a b : Value F) : Except Failure ℚ :=
  if equal a b then .ok 1
  else if key = "path".toList then byText pathSimilarity a b
  else if key = "query".toList then byText tokenJaccard a b
  else if key = "old".toList ∨ key = "new".toList then byText textSimilarity a b
  else if key = "around".toList ∨ key = "at".toList then numberSimilarity a b
  else if (numeric a).isSome ∧ (numeric b).isSome then numberSimilarity a b
  else byText textSimilarity a b

/-! ## Steps -/

/-- `==` of steps. -/
def Step.equal (a b : Step F) : Bool :=
  decide (a.name = b.name) && equalFields a.args b.args && decide (a.target = b.target) &&
    decide (a.reasoning = b.reasoning) && decide (a.changedFiles = b.changedFiles) &&
    decide (a.batchNames = b.batchNames) && decide (a.batchTargets = b.batchTargets) &&
    decide (a.writes = b.writes) && decide (a.observation = b.observation)

/-- The value of an argument. -/
def argument (args : List (Text × Value F)) (key : Text) : Option (Value F) :=
  (args.find? fun entry => entry.1 = key).map Prod.snd

/-- The keys of the arguments of two steps, without those of their targets. -/
def restKeys (a b : Step F) : List Text :=
  sortedSet ((a.args.map Prod.fst ++ b.args.map Prod.fst).filter fun key =>
    key ≠ "path".toList ∧ key ≠ "query".toList)

/-- One part of the similarity of the remaining arguments. -/
def restPart (a b : Step F) (key : Text) : Except Failure ℚ :=
  match argument a.args key, argument b.args key with
  | some left, some right => valueSimilarity key left right
  | _, _ => .ok 0

/-- How alike the targets of two steps that are no batches are. -/
def targetSimilarity (a b : Step F) : ℚ :=
  if a.target ≠ [] ∨ b.target ≠ [] then
    if (argument a.args "path".toList).isSome ∨ (argument b.args "path".toList).isSome then
      pathSimilarity a.target b.target
    else if (argument a.args "query".toList).isSome ∨ (argument b.args "query".toList).isSome then
      tokenJaccard a.target b.target
    else if a.target = b.target then 1
    else 0
  else 1

/-- How alike the targets of two batches are. -/
def batchSimilarity (a b : Step F) : ℚ :=
  if a.targets = ∅ ∧ b.targets = ∅ then 1
  else if a.targets = ∅ ∨ b.targets = ∅ then 0
  else jaccard a.targets b.targets

/-- `argument_similarity`. -/
def argumentSimilarity (config : AlignConfig) (a b : Step F) : Except Failure ℚ :=
  if config.argMode = .strict then .ok (if equalFields a.args b.args then 1 else 0)
  else if a.batchNames ≠ [] ∨ b.batchNames ≠ [] then
    let targetSim := batchSimilarity a b
    if config.argMode = .targetOnly then .ok targetSim
    else .ok (config.weightTarget * targetSim + config.weightArgRest * targetSim)
  else
    let targetSim := targetSimilarity a b
    if config.argMode = .targetOnly then .ok targetSim
    else do
      let parts ← (restKeys a b).mapM (restPart a b)
      let restSim := if parts = [] then 1 else parts.sum / parts.length
      return config.weightTarget * targetSim + config.weightArgRest * restSim

/-- `tool_similarity`. -/
def toolSimilarity (a b : Step F) : ℚ :=
  if a.names = b.names then 1 else 0

/-- `jaccard_files`. -/
def jaccardFiles (a b : Finset (Text × Text)) : ℚ :=
  if a = ∅ ∧ b = ∅ then 1 else jaccard a b

/-- `sum(x * y for x, y in zip(u, v))`. -/
def dot (u v : List ℚ) : ℚ :=
  (List.zipWith (· * ·) u v).sum

/-- `cosine`. -/
noncomputable def cosine (u v : List ℚ) : Except Failure ℝ :=
  if u.length ≠ v.length then .error (.lengthsDiffer u.length v.length)
  else
    let nu := Real.sqrt (dot u u)
    let nv := Real.sqrt (dot v v)
    if nu = 0 ∨ nv = 0 then .ok 0
    else .ok (max 0 (min 1 (dot u v / (nu * nv))))

/-- The reasoning component of `step_similarity`, before its weight. -/
noncomputable def reasoningSimilarity (a b : Step F) :
    Option (List ℚ × List ℚ) → Except Failure ℝ
  | none => if a.reasoning = [] ∧ b.reasoning = [] then .ok 1 else .error .needsEmbedder
  | some (u, v) => cosine u v

/-- `step_similarity`. -/
noncomputable def stepSimilarity (config : AlignConfig) (vectors : Option (List ℚ × List ℚ))
    (a b : Step F) : Except Failure ℝ := do
  let arguments ← argumentSimilarity config a b
  let known : ℚ := config.weightTool * toolSimilarity a b + config.weightArgs * arguments +
    config.weightFiles * jaccardFiles a.changedFiles b.changedFiles
  if config.weightReasoning ≠ 0 then
    let reasoning ← reasoningSimilarity a b vectors
    return known + config.weightReasoning * reasoning
  else return known

end Values

/-! ## `LexicalEmbedder` -/

section Embedder

variable [Lowercase]

/-- The tokens of a text. A blank text stands for a dot. -/
def lexicalTokens (text : Text) : List Text :=
  findTokens (Lowercase.lower (if text.all isSpace then ['.'] else text))

/-- The vector of some tokens: how often each token of the vocabulary is among them. -/
def countVector (vocab : List Text) (tokens : List Text) : List ℚ :=
  tokens.foldl (fun vec token => vec.modify (vocab.idxOf token) (· + 1))
    (List.replicate (max vocab.length 1) 0)

/-- `LexicalEmbedder.__call__`. The number of a token is its place in the vocabulary. -/
def lexicalEmbedder (texts : List Text) : List (List ℚ) :=
  let tokenized := texts.map lexicalTokens
  let vocab := firsts tokenized.flatten
  tokenized.map (countVector vocab)

end Embedder

/-! ## `_score_matrix` -/

section Matrix

variable {F : Type} [FloatValue F] [FloatText] [Python F] [Matcher] [Lowercase]

/-- The vectors of two lists of steps: a bag of words needs one vocabulary for both. -/
def vectorsOf (embed : List Text → List (List ℚ)) (a b : List (Step F)) :
    Except Failure (List (List ℚ) × List (List ℚ)) :=
  let reasons := (a ++ b).map fun step => step.reasoning
  let combined := embed reasons
  if combined.length ≠ reasons.length then
    .error (.vectorsMissing combined.length reasons.length)
  else .ok (combined.take a.length, combined.drop a.length)

/-- The row of a step. -/
noncomputable def scoreRow (config : AlignConfig) (left : Step F) (u : Option (List ℚ))
    (b : List (Step F × Option (List ℚ))) : Except Failure (List ℝ) :=
  b.mapM fun right => do
    let vectors := u.bind fun u => right.2.map fun v => (u, v)
    let similarity ← stepSimilarity config vectors left right.1
    return scoreFromSimilarity similarity

/-- `_score_matrix`. -/
noncomputable def scoreMatrix (config : AlignConfig) (embed : Option (List Text → List (List ℚ)))
    (a b : List (Step F)) : Except Failure (List (List ℝ)) :=
  if a = [] ∨ b = [] then .ok (if b = [] then a.map fun _ => [0] else [])
  else do
    let vectors ← match embed with
      | some embed =>
        if config.weightReasoning ≠ 0 then (vectorsOf embed a b).map some else .ok none
      | none => .ok none
    let (us, vs) := match vectors with
      | some (us, vs) => (us.map some, vs.map some)
      | none => (a.map fun _ => none, b.map fun _ => none)
    (a.zip us).mapM fun left => scoreRow config left.1 left.2 (b.zip vs)

end Matrix

end Tracewake.Alignment
