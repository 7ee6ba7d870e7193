import Vetting.Run.Basic
import Vetting.Run.Settling

/-!
# Waves

Before each wave the checks that can never be made are settled (`Vetting.Run.Settling`). All checks
whose dependencies have results then form the wave; both groups list them in ascending order.

`Run.step?` says what each event does to a run, and in which states it can occur. It leaves open
the order in which concurrent rules start, the order in which rules end and the passing of time,
which `Vetting.Run.Clock` fixes. Once a run
is cancelled no rule is started: concurrent rules that get a permit are dropped, a serial rule
whose turn it is ends the run. A check that is dropped stays pending, so that the run cannot be
taken for complete.
-/

namespace Vetting

/-- Whether a check joins the concurrent group of its wave. -/
def Plan.isConcurrent (p : Plan) (settings : Settings) (index : Nat) : Bool :=
  settings.concurrent && (p.check? index).any (·.logic.parallelSafe)

namespace Run

/-- The number of rules of a group that may run beside each other. -/
def permits (settings : Settings) : Phase → Nat
  | .concurrent => settings.permits
  | .serial => 1

/-- Enters the answer of a rule. -/
def finish (settings : Settings) (r : Run) (phase : Phase) (a : Application) (answer : Answer) :
    Run :=
  let measurement :=
    if settings.measure then some ⟨.ofMillis a.spent, phase == .concurrent⟩ else none
  { r with ledger := r.ledger.record a.index { result := .ofAnswer answer, measurement } }

/-- Carries a rule on to its end or to its next sleep. -/
def proceed (settings : Settings) (r : Run) (g : Group) (a : Application) (activity : Activity) :
    Run :=
  let (cancelled, pause) := activity.burst r.cancelled
  let r := { r with cancelled }
  match pause with
  | .ended answer => { r.finish settings g.phase a answer with stage := .within g }
  | .asleep millis deaf next =>
    let asleep := g.asleep ++ [{ a with millis, deaf, next }]
    { r with stage := .within { g with asleep } }

/-- Settles what cannot be made, and begins a wave with what is ready. -/
def survey (p : Plan) (settings : Settings) (r : Run) : Run :=
  if r.pending.isEmpty then { r with stage := .ended .finished }
  else if r.cancelled then { r with stage := .ended (.cancelled r.ledger.size) }
  else
    let ledger := p.settle r.pending r.ledger
    let pending := r.pending.filter (!ledger.contains ·)
    let settled := { r with ledger, pending }
    let ready := pending.filter (p.isReady ledger)
    if ready.isEmpty then
      if r.ledger.size < ledger.size then settled
      else { settled with stage := .ended (.stalled pending.length) }
    else
      let (waiting, serial) := ready.partition (p.isConcurrent settings)
      { settled with
        waves := r.waves + 1
        stage := .within { phase := .concurrent, waiting, serial } }

/-- Starts a rule that has a permit. -/
def launch (p : Plan) (settings : Settings) (r : Run) (g : Group) (index : Nat) (check : Check)
    (limit : Option Nat) : Run :=
  let call : Call := { index, phase := g.phase, wave := r.waves, millis := r.now }
  let a : Application := { index, since := r.now, spent := 0, limit }
  { r with calls := r.calls ++ [call] }.proceed settings g a (p.activityOf check)

/-- Gives a permit to a rule: starts it, or notes that it cannot be started. `g` no longer has it
among the waiting. -/
def grant (p : Plan) (settings : Settings) (r : Run) (g : Group) (index : Nat) (check : Check) :
    Run :=
  match g.phase, r.cancelled, check.logic.limit with
  | .concurrent, true, _ => { r with stage := .within g }
  | .serial, true, _ => { r with stage := .ended (.cancelled r.ledger.size) }
  | .concurrent, false, .faulty => { r with broken := true, stage := .within g }
  | .serial, false, .faulty => { r with stage := .ended .crashed }
  | _, false, .unlimited => r.launch p settings g index check none
  | _, false, .millis limit => r.launch p settings g index check (some limit)

/-- Wakes a sleeper, or ends it because its time limit is reached. `g` no longer has it among the
sleepers. -/
def resume (settings : Settings) (r : Run) (g : Group) (s : Sleeper) : Run :=
  match s.overruns, s.limit with
  | true, some limit =>
    let a := { s.toApplication with spent := limit }
    { r.finish settings g.phase a (.error (.timeout (.ofMillis limit))) with stage := .within g }
  | _, _ =>
    r.proceed settings g { s.toApplication with spent := s.spent + s.millis } (s.next false)

/-- Cuts the sleep of a sleeper short. -/
def interrupt (settings : Settings) (r : Run) (g : Group) (s : Sleeper) : Run :=
  r.proceed settings g { s.toApplication with spent := r.now - s.since } (s.next true)

/-- Ends a group: the serial group follows the concurrent one, and then the next wave. -/
def close (r : Run) (g : Group) : Run :=
  match g.phase with
  | .concurrent => { r with stage := .within { phase := .serial, waiting := g.serial } }
  | .serial => { r with pending := r.pending.filter (!r.ledger.contains ·), stage := .between }

/-- The run after an event, if the event can occur. -/
def step? (p : Plan) (settings : Settings) (r : Run) (e : Event) : Option Run :=
  match r.stage, e with
  | .ended _, _ => none
  | _, .pass millis => some { r with now := r.now + millis }
  | _, .cancel => some { r with cancelled := true }
  | .between, .survey => some (r.survey p settings)
  | .within g, .grant index =>
    if g.mayCall index && decide (g.asleep.length < permits settings g.phase) then
      (p.check? index).map (r.grant p settings (g.call index) index)
    else none
  | .within g, .resume index => (g.take? index).map fun (s, g) => r.resume settings g s
  | .within g, .interrupt index => do
    let (s, g) ← g.take? index
    if r.cancelled && !s.deaf then some (r.interrupt settings g s) else none
  | .within g, .close =>
    if g.waiting.isEmpty && g.asleep.isEmpty && !r.broken then some (r.close g) else none
  | .within _, .collapse => if r.broken then some { r with stage := .ended .taskFailed } else none
  | _, _ => none

/-- The run after several events, if each can occur in its turn. -/
def stepAll? (p : Plan) (settings : Settings) (r : Run) : List Event → Option Run
  | [] => some r
  | e :: es => (r.step? p settings e).bind fun r => r.stepAll? p settings es

end Run

end Vetting
