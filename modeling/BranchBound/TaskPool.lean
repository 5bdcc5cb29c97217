/-!
# Tasks without an order of their own

A pool runs a task on every item of a list. A task of this module reads and changes nothing but its
item, so the results are those of running the tasks one after the other, in the order of the items.
The searches of a solve are no such tasks, since they share what they find: how they interleave is
said by `Others`.
-/

namespace BranchBound

/-- A pool with a number of threads. -/
structure TaskPool where
  threads : Nat
  deriving Repr

namespace TaskPool

/-- The results of two computations that do not depend on each other. -/
def join {β γ : Type} (_ : TaskPool) (background : Unit → β) (foreground : Unit → γ) : β × γ :=
  (background (), foreground ())

/-- Runs a task which changes its item and gives a result. The items and the results keep the
order of the items. -/
def mapTasks {β γ : Type} (_ : TaskPool) (task : β → γ × β) (items : List β) : List γ × List β :=
  (items.map task).unzip

end TaskPool

end BranchBound
