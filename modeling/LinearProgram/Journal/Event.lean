import LinearProgram.Error

namespace LinearProgram

-- From the gravest to the least.
inductive Level where
  | warn
  | info
  | debug
  | trace
deriving DecidableEq

def Level.rank : Level → Nat
  | .warn => 0
  | .info => 1
  | .debug => 2
  | .trace => 3

def Level.name : Level → String
  | .warn => "WARN"
  | .info => "INFO"
  | .debug => "DEBUG"
  | .trace => "TRACE"

structure Event where
  level : Level
  message : String

def Event.line (e : Event) : String :=
  e.level.name ++ " " ++ e.message

-- What is at least as grave as the threshold.
def Event.upTo (threshold : Level) (events : List Event) : List Event :=
  events.filter fun e => e.level.rank ≤ threshold.rank

-- A computation that may fail. Its records outlast a failure.
abbrev Journal := ExceptT (Error Float) (StateM (Array Event))

namespace Journal

def record (events : List Event) : Journal Unit :=
  modify fun earlier => earlier ++ events.toArray

-- Takes over a result, with what the error gives to record if there is none.
def attempt {β : Type} (result : Except (Error Float) β) (onError : Error Float → List Event) :
    Journal β :=
  match result with
  | .ok b => pure b
  | .error e => do
    record (onError e)
    throw e

-- The outcome with everything that was recorded on the way.
def finish {β : Type} (journal : Journal β) : Except (Error Float) β × List Event :=
  let (outcome, events) := journal.run.run #[]
  (outcome, events.toList)

end Journal

end LinearProgram
