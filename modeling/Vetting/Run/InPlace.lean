import Vetting.Run.Report
import Vetting.Run.Settling

/-!
# Results in place

How results are entered, settled and taken out where they are stored. Entering a result answers
whether it is the first one of its check. Settling counts the checks that it settles, and goes on
until a pass over the pending checks changes nothing, if it comes to that. A report is made of
entries that are taken out of the ledger, check by check.

All tasks of a phase write into one ledger. Each of these writers has results to enter, one after
the other, and at any time it may be any writer's turn.
-/

namespace Vetting

/-! ## The ledger -/

namespace Ledger

/-- Enters a result for a check that has none. Answers whether it had none. -/
def enter (index : Nat) (entry : Entry) : StateM Ledger Bool := do
  let l ← get
  match l.entry? index with
  | some _ => return false
  | none => do
    set ({ entries := l.entries ++ [(index, entry)] } : Ledger)
    return true

/-- Takes out the entry of a check. -/
def take (index : Nat) : StateM Ledger (Option Entry) :=
  modifyGet fun l => (l.entry? index, ⟨l.entries.filter (·.1 != index)⟩)

/-- Takes out the entry of a check and makes it a line of a report, if there is one. -/
def takeLine : (RuleLabel × ValueId) × Nat → StateM Ledger (Option Line)
  | ((label, value), index) => do
    return (← take index).map fun entry => { label, value, entry }

/-- The lines of a report on checks with these labels and values. -/
def finish (checks : List (RuleLabel × ValueId)) : StateM Ledger (List Line) :=
  checks.zipIdx.filterMapM takeLine

end Ledger

/-! ## Settling -/

/-- What settling has come to: the ledger, how many checks are settled, and whether the last pass
over the pending checks changed anything. -/
structure Pass where
  ledger : Ledger
  settled : Nat := 0
  changed : Bool := false

namespace Pass

/-- Settles a check that has no result and is blocked. -/
def visit (p : Plan) (s : Pass) (index : Nat) : Pass :=
  if s.ledger.contains index then s
  else if p.isBlocked s.ledger index then
    { ledger := s.ledger.record index { result := .dependencyFailed }
      settled := s.settled + 1
      changed := true }
  else s

/-- Goes through the pending checks once more. -/
def next (p : Plan) (pending : List Nat) (s : Pass) : Pass :=
  pending.foldl (visit p) { s with changed := false }

/-- Passes over the pending checks, until one changes nothing, come to an end with `t`. -/
inductive EndsWith (p : Plan) (pending : List Nat) : (s t : Pass) → Prop
  | last {s : Pass} (h : (s.next p pending).changed = false) :
      EndsWith p pending s (s.next p pending)
  | again {s t : Pass} (h : (s.next p pending).changed = true)
      (rest : EndsWith p pending (s.next p pending) t) : EndsWith p pending s t

end Pass

/-! ## Writers -/

/-- A result that a writer has entered, and whether it was told that this was the first one. -/
structure Slip where
  writer : Nat
  index : Nat
  entry : Entry
  first : Bool

/-- A ledger with its writers, which are numbered. -/
structure Desk where
  ledger : Ledger := {}
  /-- The results that each writer still has to enter. -/
  left : Nat → List (Nat × Entry)
  slips : List Slip := []

namespace Desk

/-- A writer enters its next result. -/
def step (d : Desk) (writer : Nat) : Desk :=
  match d.left writer with
  | [] => d
  | (index, entry) :: rest =>
    let (first, ledger) := (Ledger.enter index entry).run d.ledger
    { ledger
      left := fun other => if other = writer then rest else d.left other
      slips := d.slips ++ [{ writer, index, entry, first }] }

/-- The writers take these turns. -/
def run (d : Desk) (turns : List Nat) : Desk := turns.foldl step d

end Desk

end Vetting
