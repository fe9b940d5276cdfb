import NumericScript.Run.Basic

/-!
# Narration

What a run tells while it goes on: the lines that do nothing, how many statements were read, every
report of the store, every start of a loop body, and the end. Each event has a level, and a listener
hears the events of one level and of all more severe ones.
-/

namespace NumericScript

/-- How severe an event is, the most severe first. -/
inductive Level
  | warn
  | info
  | debug
  | trace
  deriving DecidableEq, Repr

namespace Level

/-- The rank of a level, the most severe first. -/
def severity : Level → Nat
  | warn => 0
  | info => 1
  | debug => 2
  | trace => 3

/-- The name of a level. -/
def text : Level → String
  | warn => "WARN"
  | info => "INFO"
  | debug => "DEBUG"
  | trace => "TRACE"

/-- Whether a listener at the first level hears an event of the second. -/
def hears (listener event : Level) : Bool := event.severity ≤ listener.severity

end Level

/-- An event of a run. -/
inductive Event
  | ignored (line : Nat)
  | parsed (statements : Nat)
  | reported (diagnostic : Diagnostic)
  | iteration (number : Nat)
  | finished (iterations : Nat)
  | completed

namespace Event

/-- Reports are warnings if something went wrong; starts of loop bodies are the finest detail. -/
def level : Event → Level
  | reported diagnostic => if diagnostic.isError then .warn else .info
  | iteration _ => .trace
  | ignored _ | parsed _ | finished _ | completed => .debug

/-- The event as a sentence. -/
def text : Event → String
  | ignored line => "ignoring line " ++ toString line ++ ": no assignment"
  | parsed statements => "parsed " ++ toString statements ++ " top-level statements"
  | reported diagnostic => diagnostic.text
  | iteration number => "loop iteration " ++ toString number
  | finished iterations =>
    "program finished after " ++ toString iterations ++ " loop iterations"
  | completed => "script ran to completion"

end Event

/-- Whether a line does nothing: no keyword or brace stands first, and there is no `=` in it. -/
def TokenLine.isIgnored (line : TokenLine) : Bool :=
  match line.tokens with
  | [] => false
  | t :: _ =>
    match t.kind with
    | .keyword _ | .leftBrace | .rightBrace => false
    | _ => !hasEqual line.tokens

/--
Whether a line was read before an error was found. An error is found at its own line, except that a
block left open is found at the end of the text.
-/
def ScriptError.isAfter (error : ScriptError) (line : TokenLine) : Bool :=
  match error.cause with
  | .unclosedBlock => true
  | _ => line.stop.line < error.span.line

/-- The lines among those given that do nothing. -/
def ignoredEvents (lines : List TokenLine) : List Event :=
  (lines.filter TokenLine.isIgnored).map fun line => .ignored line.stop.line

/-- The events of reading a scanned script. -/
def readEvents (lines : List TokenLine) : Except ScriptError (List Stmt) → List Event
  | .ok program => ignoredEvents lines ++ [.parsed program.length]
  | .error error => ignoredEvents (lines.filter error.isAfter)

/--
The reports of a journal with the starts of loop bodies between them. A start is given by the length
of the journal at that moment; `number` starts and `length` reports are already told.
-/
def interleave (number length : Nat) : List Nat → List Diagnostic → List Event
  | [], reports => reports.map .reported
  | start :: starts, reports =>
    (reports.take (start - length)).map .reported ++
      .iteration (number + 1) ::
        interleave (number + 1) start starts (reports.drop (start - length))

/-- What a machine has reported and how many loop bodies it has started. -/
def Machine.events (machine : Machine) : List Event :=
  interleave 0 0 machine.starts.toList machine.env.journal.toList

/-- The events of a run. -/
def Outcome.events : Outcome → List Event
  | finished machine => machine.events ++ [.finished machine.starts.size, .completed]
  | failed _ machine => machine.events
  | unfinished => []

/-- Run a script and tell its events. A text that cannot be scanned has none. -/
def narrate (limits : Limits) (rounds : Nat) (source : String) :
    List Event × Except ScriptError Outcome :=
  match scan source with
  | .error error => ([], .error error)
  | .ok lines =>
    let program := readProgram maxNesting lines
    let outcome := program.map fun program => runProgram limits rounds program .fresh
    let running :=
      match outcome with
      | .ok outcome => outcome.events
      | .error _ => []
    (readEvents lines program ++ running, outcome)

end NumericScript
