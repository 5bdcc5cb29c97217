import BranchBound.Text.Attachment
import BranchBound.Text.Letter.Context
import BranchBound.Text.Letter.Mapping

/-!
# Casings of names

A name is a sequence of words. `Casing.words` finds them: blanks, hyphens and underscores separate
words and are dropped, and a word also ends where a small letter meets a capital, where a letter
with a case meets a digit, and before the last capital of a run of capitals that a small letter
follows. A letter is taken with everything that attaches to it. A casing writes the words in capital
or in small letters and joins them again in its own way. Every letter is replaced by its other form;
the small sigma is the only one with two forms, one at the end of a word and one everywhere else.
-/

namespace BranchBound

namespace Letter

/-- A text in capital letters. -/
def capitals (text : List Char) : List Char := text.flatMap capital

/-- The small form of a sigma, given what stands before it, the nearest character first, and after
it. -/
def smallSigma (before after : List Char) : Char :=
  if continues before && !continues after then 'ς' else 'σ'

/-- A text in small letters, where `before` holds what stands before it, the nearest character
first. -/
def smallsAfter (before : List Char) : List Char → List Char
  | [] => []
  | c :: rest =>
    (if c == 'Σ' then [smallSigma before rest] else small c) ++ smallsAfter (c :: before) rest

/-- A text in small letters. -/
def smalls (text : List Char) : List Char := smallsAfter [] text

/-- Whether a text differs in capital and in small letters and is written in capital ones. -/
def isCapital (text : List Char) : Bool :=
  capitals text != smalls text && text == capitals text

/-- Whether a text differs in capital and in small letters and is written in small ones. -/
def isSmall (text : List Char) : Bool :=
  capitals text != smalls text && text == smalls text

end Letter

/-- How the words of a name are written and joined. -/
inductive Casing where
  | upper
  | lower
  | title
  | camel
  | pascal
  | snake
  | upperSnake
  | kebab
  | cobol
  | train
  | flat
  deriving DecidableEq, Repr

namespace Casing

/-- The name of a casing. -/
def name : Casing → String
  | upper => "Upper"
  | lower => "Lower"
  | title => "Title"
  | camel => "Camel"
  | pascal => "Pascal"
  | snake => "Snake"
  | upperSnake => "UpperSnake"
  | kebab => "Kebab"
  | cobol => "Cobol"
  | train => "Train"
  | flat => "Flat"

/-- What a cluster is in a name. -/
inductive ClusterKind where
  | separator
  | capital
  | small
  | digit
  | other
  deriving DecidableEq, Repr

/-- The kind of a cluster. -/
def kindOf (cluster : List Char) : ClusterKind :=
  if cluster == ['_'] || cluster == ['-'] || cluster == [' '] then .separator
  else if Letter.isCapital cluster then .capital
  else if Letter.isSmall cluster then .small
  else if cluster.all Char.isDigit then .digit
  else .other

/-- Whether a word ends between two neighbouring clusters, where `next` is what follows them. -/
def endsBetween (c d : ClusterKind) (next : Option ClusterKind) : Bool :=
  match c, d with
  | .small, .capital | .small, .digit | .capital, .digit | .digit, .small | .digit, .capital => true
  | .capital, .capital => next == some .small
  | _, _ => false

/-- The words of a list of clusters, where `current` is the beginning of the first word. -/
def wordsFrom (current : List Char) : List (ClusterKind × List Char) → List (List Char)
  | [] => [current]
  | (kind, cluster) :: rest =>
    if kind == .separator then current :: wordsFrom [] rest
    else
      match rest with
      | (nextKind, _) :: more =>
        if endsBetween kind nextKind (more.head?.map Prod.fst) then
          (current ++ cluster) :: wordsFrom [] rest
        else wordsFrom (current ++ cluster) rest
      | [] => wordsFrom (current ++ cluster) rest

/-- The nonempty words of a name. -/
def words (s : String) : List (List Char) :=
  let clusters := (Cluster.ofText s.toList).map fun cluster => (kindOf cluster, cluster)
  (wordsFrom [] clusters).filter fun word => !word.isEmpty

/-- A word with a capital first and small letters after it. -/
def capitalized : List Char → List Char
  | [] => []
  | c :: rest => Letter.capital c ++ Letter.smalls rest

/-- The words written with a small first word and capitalized ones after it. -/
def humped : List (List Char) → List (List Char)
  | [] => []
  | first :: rest => Letter.smalls first :: rest.map capitalized

def joinWith (separator : String) (ws : List (List Char)) : String :=
  separator.intercalate (ws.map String.ofList)

/-- The name written in a casing. -/
def apply (casing : Casing) (s : String) : String :=
  let ws := words s
  match casing with
  | upper => joinWith " " (ws.map Letter.capitals)
  | lower => joinWith " " (ws.map Letter.smalls)
  | title => joinWith " " (ws.map capitalized)
  | camel => joinWith "" (humped ws)
  | pascal => joinWith "" (ws.map capitalized)
  | snake => joinWith "_" (ws.map Letter.smalls)
  | upperSnake => joinWith "_" (ws.map Letter.capitals)
  | kebab => joinWith "-" (ws.map Letter.smalls)
  | cobol => joinWith "-" (ws.map Letter.capitals)
  | train => joinWith "-" (ws.map capitalized)
  | flat => joinWith "" (ws.map Letter.smalls)

/-- The casings by their names in small letters. -/
def named : List (String × Casing) :=
  [upper, lower, title, camel, pascal, snake, upperSnake, kebab, cobol, train, flat].map
    fun casing => (snake.apply casing.name, casing)

end Casing

end BranchBound
