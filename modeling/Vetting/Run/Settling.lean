import Vetting.Plan.Basic
import Vetting.Run.Ledger

/-!
# Settling

A check whose dependencies all have results, not all of them passed, can never be made, nor can one
that has no counterpart to depend on. Such checks get the result that a dependency failed, which may
block further checks in turn. `Plan.settle` goes through the pending checks until none is left to
settle.
-/

namespace Vetting.Plan

/-- Whether all that a check depends on has a result. -/
def isReady (p : Plan) (l : Ledger) (index : Nat) : Bool :=
  (p.check? index).any fun check => check.dependencies.all l.contains

/-- Whether a check can never be made. -/
def isBlocked (p : Plan) (l : Ledger) (index : Nat) : Bool :=
  (p.check? index).any fun check =>
    check.unsatisfiable ||
      check.dependencies.all l.contains &&
        check.dependencies.any fun dependency => l.outcome? dependency != some .passed

/-- Enters a failed dependency for a check that has no result and is blocked. -/
def settleCheck (p : Plan) (l : Ledger) (index : Nat) : Ledger :=
  if !l.contains index && p.isBlocked l index then l.record index { result := .dependencyFailed }
  else l

/-- Goes through the pending checks once. -/
def settleOnce (p : Plan) (pending : List Nat) (l : Ledger) : Ledger :=
  pending.foldl p.settleCheck l

/-- Goes through the pending checks as long as that settles some, at most `rounds` times. -/
def settleRounds (p : Plan) (pending : List Nat) : Nat → Ledger → Ledger
  | 0, l => l
  | rounds + 1, l =>
    let settled := p.settleOnce pending l
    if settled.size = l.size then l else p.settleRounds pending rounds settled

/-- Settles all pending checks that can never be made. Each round but the last settles one. -/
def settle (p : Plan) (pending : List Nat) (l : Ledger) : Ledger :=
  p.settleRounds pending (pending.length + 1) l

end Vetting.Plan
