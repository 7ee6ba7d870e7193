import Vetting.Run.Ledger
import Vetting.Run.Settings
import Vetting.ValueTree.Basic

/-!
# Reports

The results of a run, in the order of its checks.
-/

namespace Vetting

/-- The entry of a check in a report. -/
structure Line where
  label : RuleLabel
  value : ValueId
  entry : Entry
deriving Repr

namespace Line

def outcome (l : Line) : Outcome := l.entry.result.outcome

def isPassed (l : Line) : Bool := l.entry.result.isPassed

end Line

structure Report where
  lines : List Line
  duration : Duration
  tree : ValueTree

namespace Report

def size (r : Report) : Nat := r.lines.length

def passed (r : Report) : Bool := r.lines.all Line.isPassed

/-- The number of results with an outcome. -/
def count (r : Report) (outcome : Outcome) : Nat := r.lines.countP (·.outcome == outcome)

def failures (r : Report) : List Line := r.lines.filter (!·.isPassed)

/-- The results for objects of an identity. -/
def ofIdentity (r : Report) (identity : String) : List Line :=
  r.lines.filter (·.label.identity == some identity)

/-- The first result under a label. -/
def find? (r : Report) (label : RuleLabel) : Option Line := r.lines.find? (·.label == label)

end Report

/-- Whether a report counts as an error. -/
def RejectionPolicy.rejects (policy : RejectionPolicy) (report : Report) : Bool :=
  match policy with
  | never => false
  | onError => decide (0 < report.count .errored)
  | onAnyFailure => !report.passed

end Vetting
