/-!
# Faults

An operation that is asked for something its data does not hold stops with a `Fault`: a position
outside a table, a counter that would leave its range, a request that makes no sense in the
present state. Faults are not results of the domain. An infeasible box or an invalid option has a
result of its own; a fault says that the caller broke a promise.
-/

namespace BranchBound

/-- Why an operation stopped. -/
inductive Fault where
  /-- A table was read or written at a position it does not have. -/
  | outOfRange
  /-- A bound was to be changed on a column the domain does not have. -/
  | columnOutOfRange (column : Nat)
  /-- A counter was to be decremented below zero. -/
  | counterUnderflow
  /-- A counter was to be incremented beyond its range. -/
  | counterOverflow
  /-- The current node of a search without nodes was asked for. -/
  | noCurrentNode
  /-- A random decision was asked for with a probability outside the unit interval. -/
  | invalidProbability
  /-- A loop used up every step that its number type allows. -/
  | stepsExhausted
  deriving DecidableEq, Repr

namespace Fault

/-- The message of a fault, for those which have one. -/
def message? : Fault → Option String
  | columnOutOfRange column => some s!"column {column} is out of range"
  | noCurrentNode => some "the search has no current node"
  | _ => none

end Fault

/-- The result of an operation which may stop with a fault. -/
abbrev Checked (β : Type) := Except Fault β

/-- The entry of a table at a position. -/
def fetch {β : Type} (table : Array β) (position : Nat) : Checked β :=
  match table[position]? with
  | some entry => .ok entry
  | none => .error .outOfRange

/-- The table with the entry at a position replaced. -/
def store {β : Type} (table : Array β) (position : Nat) (entry : β) : Checked (Array β) :=
  if h : position < table.size then .ok (table.set position entry h) else .error .outOfRange

/-- The table with the entry at a position changed by a function which may stop. -/
def update {β : Type} (table : Array β) (position : Nat) (f : β → Checked β) :
    Checked (Array β) := do
  store table position (← f (← fetch table position))

/-- The sum of two counters of a given number of binary digits. -/
def count (bits n m : Nat) : Checked Nat :=
  if n + m < 1 <<< bits then .ok (n + m) else .error .counterOverflow

/-- The difference of two counters. -/
def uncount (n m : Nat) : Checked Nat :=
  if m ≤ n then .ok (n - m) else .error .counterUnderflow

/-- The first entry a test accepts, where the test may stop. -/
def findFirst? {β : Type} (test : β → Checked Bool) : List β → Checked (Option β)
  | [] => .ok none
  | x :: xs => do if ← test x then return some x else findFirst? test xs

/-- The entries a test accepts, where the test may stop. -/
def keepIf {β : Type} (test : β → Checked Bool) : List β → Checked (List β)
  | [] => .ok []
  | x :: xs => do
    let keep ← test x
    let rest ← keepIf test xs
    return if keep then x :: rest else rest

/-- Whether a test accepts every entry; it is not asked again after the first refusal. -/
def allHold {β : Type} (test : β → Checked Bool) : List β → Checked Bool
  | [] => .ok true
  | x :: xs => do if ← test x then allHold test xs else return false

/-- Whether a test accepts some entry; it is not asked again after the first such entry. -/
def someHolds {β : Type} (test : β → Checked Bool) : List β → Checked Bool
  | [] => .ok false
  | x :: xs => do if ← test x then return true else someHolds test xs

/-- The accepted values of a partial map which may stop, in order. -/
def collect {β γ : Type} (f : β → Checked (Option γ)) : List β → Checked (List γ)
  | [] => .ok []
  | x :: xs => do
    let image ← f x
    let rest ← collect f xs
    return match image with
      | some y => y :: rest
      | none => rest

end BranchBound
