import BranchBound.Decimal
import BranchBound.Text.Casing
import BranchBound.Text.Quoted

/-!
# Statistics and where they are written

Statistics are named numbers and quantities. A statistic becomes one line, `heading name=value`, or
several if one of its parts has a line feed inside. A carriage return before a line feed belongs to
the end of the line, so it is not part of it. The sink is configured at most once: later
configurations change nothing, and before the first one statistics are dropped. A configuration may
ask for a casing of the names and for a line after every block of statistics.
-/

namespace BranchBound

/-- The value of a statistic: a number of things, or a quantity. -/
inductive StatisticValue (α : Type) where
  | count (n : Nat)
  | quantity (x : α)
  deriving Repr

/-- The text of a value. -/
def StatisticValue.text : StatisticValue Float → String
  | count n => s!"{n}"
  | quantity x => Decimal.text x

/-- Statistics with their names, in the order in which they are written. -/
abbrev StatisticList (α : Type) := List (String × StatisticValue α)

/-- Statistics under the common first part of their names. -/
def StatisticList.under {α : Type} (scope : String) (statistics : StatisticList α) :
    StatisticList α :=
  statistics.map fun (name, value) => (scope ++ "_" ++ name, value)

namespace Lines

/-- A line without the carriage return at its end. -/
def withoutReturn (line : List Char) : List Char :=
  if line.getLast? == some '\r' then line.dropLast else line

/-- The lines of a text to which a line feed is added. -/
def ofText (text : String) : List String :=
  (text.splitOn "\n").map fun line => String.ofList (withoutReturn line.toList)

end Lines

/-- How statistics are written. -/
structure StatisticFormat where
  heading : String
  /-- What is written after a block of statistics. -/
  closing : Option String
  /-- The casing of the names, which are written as they are without one. -/
  casing : Option Casing
  /-- Whether the lines go to a writer rather than to the messages of the program. -/
  hasWriter : Bool
  deriving Repr

namespace StatisticFormat

/-- The heading of statistics when none is chosen. -/
def defaultHeading : String := "%%mip%%"

/-- The description of a format. -/
def describe (f : StatisticFormat) : String :=
  let casing := match f.casing with
    | none => "None"
    | some c => "Some(" ++ c.name ++ ")"
  let writer := if f.hasWriter then "Some(\"<writer>\")" else "None"
  "StatisticConfig \x7b prefix: " ++ Quoted.quote f.heading ++ ", postfix: " ++
    Quoted.quote? f.closing ++ ", casing: " ++ casing ++ ", writer: " ++ writer ++ " \x7d"

/-- What is written of a statistic. -/
def record (f : StatisticFormat) (name value : String) : String :=
  let written := match f.casing with
    | none => name
    | some casing => casing.apply name
  f.heading ++ " " ++ written ++ "=" ++ value

end StatisticFormat

/-- The format chosen first, if any, and the lines that were written but not handed on. -/
structure StatisticSink where
  format : Option StatisticFormat
  lines : List String
  deriving Repr

namespace StatisticSink

def empty : StatisticSink := ⟨none, []⟩

/-- Chooses a format; only the first choice counts. -/
def configure (s : StatisticSink) (f : StatisticFormat) : StatisticSink :=
  match s.format with
  | some _ => s
  | none => { s with format := some f }

def isEnabled (s : StatisticSink) : Bool := s.format.isSome

/-- Writes a text and ends its line. -/
def write (s : StatisticSink) (text : String) : StatisticSink :=
  { s with lines := s.lines ++ Lines.ofText text }

/-- Writes one statistic. -/
def record (s : StatisticSink) (name value : String) : StatisticSink :=
  match s.format with
  | none => s
  | some f => s.write (f.record name value)

/-- Hands the lines written so far to the writer, if there is one. -/
def flush (s : StatisticSink) : List String × StatisticSink :=
  (if s.format.any StatisticFormat.hasWriter then s.lines else [], { s with lines := [] })

/-- Ends a block of statistics. -/
def close (s : StatisticSink) : StatisticSink :=
  match s.format.bind StatisticFormat.closing with
  | none => s
  | some closing => s.write closing

/-- Writes a block of statistics. -/
def recordAll (s : StatisticSink) (statistics : StatisticList Float) : StatisticSink :=
  (statistics.foldl (fun s (name, value) => s.record name value.text) s).close

end StatisticSink

/-- The common first part of the names of statistics that belong together. -/
structure StatisticScope where
  name : String
  deriving Repr

namespace StatisticScope

def ofParts (parts : List String) : StatisticScope := ⟨"_".intercalate parts⟩

/-- The scope of a part of this scope. An empty scope is the part itself. -/
def attach (s : StatisticScope) (part : String) : StatisticScope :=
  if s.name.isEmpty then ⟨part⟩ else ⟨s.name ++ "_" ++ part⟩

end StatisticScope

end BranchBound
