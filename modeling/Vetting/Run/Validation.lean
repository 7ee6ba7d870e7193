import Vetting.Run.Clock
import Vetting.Run.Report

/-!
# Validation

To validate a document is to prepare a plan and run it to its end. The answer is a report if every
check has a result, and the settings may reject that, too.
-/

namespace Vetting

/-- Why a validation gives no report, or none that is accepted. -/
inductive RunError where
  | setup (error : SetupError)
  | stalled (pending : Nat)
  | cancelled (completed : Nat)
  | taskFailed
  | crashed
  | rejected (report : Report)

namespace RunError

def message : RunError → String
  | setup error => error.message
  | stalled pending => s!"scheduler stalled with {pending} rules pending"
  | cancelled completed => s!"validation cancelled after {completed} rules completed"
  | taskFailed => "rule task failed"
  | crashed => "run crashed outside the application of a rule"
  | rejected report =>
    s!"validation rejected: {report.failures.length} of {report.size} rules did not pass"

/-- Whether the fault lies in manifest and rules, and no rule was applied. -/
def isConfiguration : RunError → Bool
  | setup error => error.isConfiguration
  | _ => false

end RunError

/-- When a run is cancelled from outside. -/
structure Cancellation where
  /-- Whether it is cancelled before it begins. -/
  before : Bool := false
  /-- The time at which it is cancelled. -/
  millis : Option Nat := none
deriving DecidableEq, Repr

/-- What comes of a validation. -/
structure Validation where
  answer : Except RunError Report
  /-- Every rule that was applied, by its label, in the order of the starts. -/
  calls : List (Call × RuleLabel) := []
  finishedAt : Nat := 0

namespace Run

/-- The report on a run that is complete. -/
def report (p : Plan) (r : Run) : Report where
  lines := (r.ledger.collect p.checks).map fun (check, entry) => ⟨check.label, check.value, entry⟩
  duration := .ofMillis r.now
  tree := p.tree

/-- The answer of a run that is over. -/
def answer (p : Plan) (settings : Settings) (r : Run) : Except RunError Report :=
  match r.ending? with
  | some .finished =>
    let report := r.report p
    if settings.rejection.rejects report then .error (.rejected report) else .ok report
  | some (.cancelled completed) => .error (.cancelled completed)
  | some .taskFailed => .error .taskFailed
  | some .crashed => .error .crashed
  | some (.stalled pending) => .error (.stalled pending)
  | none => .error (.stalled r.pending.length)

end Run

/-- Validates a document. -/
def validate (m : Manifest) (registry : RuleRegistry) (settings : Settings)
    (cancellation : Cancellation) (document : Json) : Validation :=
  match Plan.prepare m registry settings.onFailure document with
  | .error error => { answer := .error (.setup error) }
  | .ok plan =>
    let run := Run.complete plan settings cancellation.before cancellation.millis
    { answer := run.answer plan settings
      calls := run.calls.filterMap fun call => (plan.check? call.index).map (call, ·.label)
      finishedAt := run.now }

end Vetting
