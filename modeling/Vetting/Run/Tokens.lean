import Vetting.Run.Waves

/-!
# Runs with a token for each rule

What a rule asks whether it is cancelled is a token of its own, derived from that of the run when
the rule is started. A token reports a cancellation once it is fired or the one that it is derived
from is; the token of the run and those of other rules take no notice of it. The token of a rule is
fired when its time limit is reached. `Run` has no tokens but that of the run, and cuts a rule that
overruns off without a word: here is a run in which the tokens are there.
-/

namespace Vetting

/-- Carries an activity on to its end or to its next sleep that takes time, for a rule whose own
token is fired or not. The flag says whether the run is cancelled, before and after. -/
def Activity.burstUnder (fired : Bool) : Activity → Bool → Bool × Pause
  | answer a, cancelled => (cancelled, .ended a)
  | crash message, cancelled => (cancelled, .ended (.error (.crashed (message.getD unspokenCrash))))
  | cancelRun next, _ => next.burstUnder fired true
  | poll next, cancelled => (next (cancelled || fired)).burstUnder fired cancelled
  | sleep 0 _ next, cancelled => (next false).burstUnder fired cancelled
  | sleep (millis + 1) deaf next, cancelled => (cancelled, .asleep (millis + 1) deaf next)

/-- A run with the tokens of its rules. -/
structure Tokened where
  run : Run
  /-- The checks whose rules have fired tokens. -/
  fired : List Nat := []

namespace Tokened

/-- Whether the token of a rule reports a cancellation. -/
def reports (t : Tokened) (index : Nat) : Bool := t.run.cancelled || t.fired.contains index

/-- Carries a rule on to its end or to its next sleep. -/
def proceed (settings : Settings) (t : Tokened) (g : Group) (a : Application)
    (activity : Activity) : Tokened :=
  let (cancelled, pause) := activity.burstUnder (t.fired.contains a.index) t.run.cancelled
  let r := { t.run with cancelled }
  match pause with
  | .ended answer =>
    { t with run := { r.finish settings g.phase a answer with stage := .within g } }
  | .asleep millis deaf next =>
    let asleep := g.asleep ++ [{ a with millis, deaf, next }]
    { t with run := { r with stage := .within { g with asleep } } }

/-- Starts a rule that has a permit, with a token of its own. -/
def launch (p : Plan) (settings : Settings) (t : Tokened) (g : Group) (index : Nat) (check : Check)
    (limit : Option Nat) : Tokened :=
  let call : Call := { index, phase := g.phase, wave := t.run.waves, millis := t.run.now }
  let a : Application := { index, since := t.run.now, spent := 0, limit }
  let started : Tokened :=
    { run := { t.run with calls := t.run.calls ++ [call] }
      fired := t.fired.filter (· != index) }
  started.proceed settings g a (p.activityOf check)

/-- Gives a permit to a rule. No token is needed unless that starts it. -/
def grant (p : Plan) (settings : Settings) (t : Tokened) (g : Group) (index : Nat)
    (check : Check) : Tokened :=
  match t.run.cancelled, check.logic.limit with
  | false, .unlimited => t.launch p settings g index check none
  | false, .millis limit => t.launch p settings g index check (some limit)
  | _, _ => { t with run := t.run.grant p settings g index check }

/-- Wakes a sleeper, or fires its token and ends it because its time limit is reached. -/
def resume (settings : Settings) (t : Tokened) (g : Group) (s : Sleeper) : Tokened :=
  match s.overruns, s.limit with
  | true, some limit =>
    let a := { s.toApplication with spent := limit }
    let r := t.run.finish settings g.phase a (.error (.timeout (.ofMillis limit)))
    { run := { r with stage := .within g }, fired := s.index :: t.fired }
  | _, _ =>
    t.proceed settings g { s.toApplication with spent := s.spent + s.millis } (s.next false)

/-- Cuts the sleep of a sleeper short. -/
def interrupt (settings : Settings) (t : Tokened) (g : Group) (s : Sleeper) : Tokened :=
  t.proceed settings g { s.toApplication with spent := t.run.now - s.since } (s.next true)

/-- The run after an event, if the event can occur. A sleeper whose own token is fired notices
that, too. -/
def step? (p : Plan) (settings : Settings) (t : Tokened) (e : Event) : Option Tokened :=
  match t.run.stage, e with
  | .within g, .grant index =>
    if g.mayCall index && decide (g.asleep.length < Run.permits settings g.phase) then
      (p.check? index).map (t.grant p settings (g.call index) index)
    else none
  | .within g, .resume index => (g.take? index).map fun (s, g) => t.resume settings g s
  | .within g, .interrupt index => do
    let (s, g) ← g.take? index
    if t.reports index && !s.deaf then some (t.interrupt settings g s) else none
  | _, _ => (t.run.step? p settings e).map fun run => { t with run }

/-- The run after several events, if each can occur in its turn. -/
def stepAll? (p : Plan) (settings : Settings) (t : Tokened) : List Event → Option Tokened
  | [] => some t
  | e :: es => (t.step? p settings e).bind fun t => t.stepAll? p settings es

/-- A run of a plan that has not begun. -/
def start (p : Plan) (settings : Settings) (cancelled : Bool) : Tokened :=
  { run := Run.start p settings cancelled }

end Tokened

end Vetting
