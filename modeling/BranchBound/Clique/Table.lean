import BranchBound.Action
import BranchBound.Bisection
import BranchBound.Bound

/-!
# Cliques of binary literals

A clique is a set of literals `x = 1` or `x = 0` of binary columns of which at most one can be
true in any solution. The table lists for every literal the cliques which contain it.
-/

namespace BranchBound

/-- The literal `column = value` of a binary column. -/
structure BinaryLiteral where
  column : ColumnId
  value : Bool
  deriving DecidableEq, Repr

namespace BinaryLiteral

def complement (l : BinaryLiteral) : BinaryLiteral := { l with value := !l.value }

/-- The position of a literal among all literals: two per column, the negative one first. -/
def index (l : BinaryLiteral) : Nat := 2 * l.column + if l.value then 1 else 0

/-- The name of a literal. -/
def text (l : BinaryLiteral) : String :=
  if l.value then s!"x{l.column}" else s!"~x{l.column}"

end BinaryLiteral

/-- Cliques, and for every literal the positions of the cliques containing it. -/
structure CliqueTable where
  cliques : Array (List BinaryLiteral)
  occurrences : Array (List Nat)
  deriving Repr

namespace CliqueTable

/-- A table without cliques over a number of columns. -/
def empty (columnCount : Nat) : CliqueTable := ⟨#[], Array.replicate (2 * columnCount) []⟩

/-- The distinct literals of a list, in the order of their positions. -/
def distinct (literals : List BinaryLiteral) : List BinaryLiteral :=
  (literals.mergeSort fun a b => a.index ≤ b.index).eraseReps

/-- Whether literals in order of their positions form a clique: there are two of them, and no
column occurs with both values. -/
def isClique (literals : List BinaryLiteral) : Bool :=
  2 ≤ literals.length &&
    (literals.zip literals.tail).all fun (a, b) => a.column != b.column

/-- The positions of the cliques that contain a literal, in increasing order. -/
def occurrencesOf (t : CliqueTable) (l : BinaryLiteral) : Checked (List Nat) :=
  fetch t.occurrences l.index

/-- Lists a clique under a literal. -/
def listUnder (t : CliqueTable) (clique : Nat) (l : BinaryLiteral) : Checked CliqueTable := do
  return { t with
    occurrences := ← update t.occurrences l.index fun found => .ok (found ++ [clique]) }

/-- Adds the clique that at most one of the literals is true, and returns whether it did. Lists
with fewer than two different literals and lists with both literals of a column are not added. A
clique is listed under its literals before it is stored. -/
def add (literals : List BinaryLiteral) : Action CliqueTable Bool := do
  let clique := distinct literals
  if !isClique clique then return false
  let position := (← get).cliques.size
  clique.forM fun l => Action.change fun t => t.listUnder position l
  modify fun t => { t with cliques := t.cliques.push clique }
  return true

/-- The literals of several cliques in order of appearance, each once, after those in `seen`. -/
def gather (t : CliqueTable) (l : BinaryLiteral) :
    List Nat → List BinaryLiteral → Checked (List BinaryLiteral)
  | [], seen => .ok seen
  | clique :: rest, seen => do
    let literals ← fetch t.cliques clique
    gather t l rest <| literals.foldl
      (fun seen other => if other != l && !seen.contains other then seen ++ [other] else seen) seen

/-- The literals which are false once a literal is true. -/
def impliedBy (t : CliqueTable) (l : BinaryLiteral) : Checked (List BinaryLiteral) := do
  t.gather l (← t.occurrencesOf l) []

/-- Whether some clique contains both literals: the cliques of the literal with fewer of them are
looked up among those of the other one. -/
def shareClique (t : CliqueTable) (a b : BinaryLiteral) : Checked Bool := do
  let left ← t.occurrencesOf a
  let right ← t.occurrencesOf b
  let (fewer, others) := if left.length ≤ right.length then (left, right) else (right, left)
  return fewer.any (Bisection.contains others)

/-- Adds a column to the first part with all of whose columns it shares a clique, or to a new
part. -/
def place (t : CliqueTable) (c : ColumnId) : List (List ColumnId) → Checked (List (List ColumnId))
  | [] => .ok [[c]]
  | part :: rest => do
    if ← allHold (fun member => t.shareClique ⟨c, true⟩ ⟨member, true⟩) part then
      return (part ++ [c]) :: rest
    else return part :: (← place t c rest)

/-- Parts the columns greedily such that any two columns of a part cannot both be one. -/
def partition (t : CliqueTable) (columns : List ColumnId) : Checked (List (List ColumnId)) :=
  columns.foldlM (fun parts c => t.place c parts) []

end CliqueTable

end BranchBound
