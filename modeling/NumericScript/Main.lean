import NumericScript.CommandLine.Response

/-!
# The program

Reads the arguments and the script file, and prints the answer. A run with a time limit is repeated
with twice the loop bodies as long as it has not come to its end and there is time left; what a run
does does not depend on how many more loop bodies it may start.
-/

namespace NumericScript

/-- More rounds of a loop than any run can make. -/
def enoughRounds : Nat := 2 ^ 62

/-- What is found under a file's name. -/
def readContent (file : String) : IO Content := do
  try
    return .bytes (← IO.FS.readBinFile file)
  catch
    | .noFileOrDirectory .. => return .missing
    | .inappropriateType .. => return .unreadable "Is a directory (os error 21)"
    | .permissionDenied .. => return .unreadable "Permission denied (os error 13)"
    | error => return .unreadable (toString error)

/-- The limits of a run whose time is over once it has started a number of loop bodies. -/
def Options.limitsUpTo (options : Options) (bodies timeout : Nat) : Limits :=
  { options.limits with
    elapsed := fun iteration => if iteration ≤ bodies then 1 else (timeout + 1) * 1000000 }

/-- Run a script within its time limit, if it has one. -/
def runInTime (options : Options) (source : String) : IO Telling := do
  match options.timeout with
  | none => return narrate options.limits enoughRounds source
  | some timeout =>
    let start ← IO.monoMsNow
    let mut telling := narrate (options.limitsUpTo 0 timeout) enoughRounds source
    for doublings in [10:64] do
      if !Telling.isLate telling then
        return telling
      let now ← IO.monoMsNow
      if timeout ≤ now - start then
        return telling
      telling := narrate (options.limitsUpTo (2 ^ doublings) timeout) enoughRounds source
    return telling

/-- The answer to arguments. -/
def answer (arguments : List String) : IO Response := do
  match Options.ofArguments arguments with
  | .error error => return error.response
  | .ok .help => return { exitCode := 0, stdout := usage }
  | .ok (.run file options) =>
    match (← readContent file).source file with
    | .error response => return response
    | .ok source => return (← runInTime options source).response options

end NumericScript

def main (arguments : List String) : IO UInt32 := do
  let response ← NumericScript.answer arguments
  IO.print response.stdout
  IO.eprint response.stderr
  return response.exitCode
