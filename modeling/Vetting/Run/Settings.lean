import Vetting.Manifest.Reading

/-!
# Settings of a run
-/

namespace Vetting

/-- When a completed run counts as an error as a whole. -/
inductive RejectionPolicy where
  | never
  | onError
  | onAnyFailure
deriving DecidableEq, Repr

structure Settings where
  /-- Whether rules that are safe to run beside others do so. -/
  concurrent : Bool := true
  /-- Whether the time that each rule took is kept. -/
  measure : Bool := false
  onFailure : FailurePolicy := .propagate
  /-- How many rules may run beside each other. No run begins if these are more than
  `Settings.permitLimit`. -/
  maxParallelism : Nat := 16
  rejection : RejectionPolicy := .never
deriving DecidableEq, Repr

/-- The number of rules that do run beside each other; there is at least one. -/
def Settings.permits (settings : Settings) : Nat := max 1 settings.maxParallelism

/-- How many permits there can be: an eighth of the range of a 64-bit word, rounded down. -/
def Settings.permitLimit : Nat := 2305843009213693951

end Vetting
