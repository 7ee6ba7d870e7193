import Vetting.Rule.Finding

/-!
# Ledgers

A ledger holds the results of checks by number. The first result of a check stands; later ones are
not entered.
-/

namespace Vetting

/-- How long a rule took, and in which way it was run. -/
structure Measurement where
  elapsed : Duration
  concurrent : Bool
deriving DecidableEq, Repr

/-- What is kept of a check that is done. -/
structure Entry where
  result : Result
  measurement : Option Measurement := none
deriving Repr

structure Ledger where
  /-- Numbers and entries in the order in which they came in. -/
  entries : List (Nat × Entry) := []
deriving Repr

namespace Ledger

def empty : Ledger := {}

def entry? (l : Ledger) (index : Nat) : Option Entry := l.entries.lookup index

def contains (l : Ledger) (index : Nat) : Bool := (l.entry? index).isSome

def outcome? (l : Ledger) (index : Nat) : Option Outcome :=
  (l.entry? index).map (·.result.outcome)

def size (l : Ledger) : Nat := l.entries.length

/-- Enters a result, unless there is one. -/
def record (l : Ledger) (index : Nat) (entry : Entry) : Ledger :=
  if l.contains index then l else ⟨l.entries ++ [(index, entry)]⟩

/-- Enters results in turn. -/
def recordAll (l : Ledger) (writes : List (Nat × Entry)) : Ledger :=
  writes.foldl (fun l (index, entry) => l.record index entry) l

/-- The entries of the checks of a list, in the order of the list. -/
def collect (l : Ledger) (checks : List α) : List (α × Entry) :=
  checks.zipIdx.filterMap fun (check, index) => (l.entry? index).map (check, ·)

end Ledger

end Vetting
