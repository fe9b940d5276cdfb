import NumericScript.CommandLine.Options

/-!
# Responses

What the program answers: an exit code and the texts for both outputs. A script that runs to its end
may show the store it leaves; what went wrong is told on the second output.
-/

namespace NumericScript

/-- What is found under a file's name. -/
inductive Content
  | missing
  | unreadable (reason : String)
  | bytes (data : ByteArray)

/-- What the program answers. -/
structure Response where
  exitCode : UInt32
  stdout : String := ""
  stderr : String := ""

/-- The lines that show a store: scalars first, then elements. -/
def dumpLines (store : Store) : List String :=
  store.scalars.map (fun (name, value) => name ++ " = " ++ toString value) ++
    store.arrays.flatMap fun (name, elements) =>
      elements.map fun (index, value) =>
        name ++ "[" ++ toString index.toNat ++ "] = " ++ toString value

/-- Lines as one text. -/
def joinLines (lines : List String) : String :=
  lines.foldl (fun text line => text ++ line ++ "\n") ""

/-- The answer to arguments that are refused. -/
def UsageError.response (error : UsageError) : Response :=
  { exitCode := 2, stderr := "error: " ++ error.text ++ "\n\n" ++ usage }

/-- An error of a script, with the hint if there is one. -/
def ScriptError.report (error : ScriptError) : String :=
  match error.cause.help? with
  | none => error.text ++ "\n"
  | some help => error.text ++ "\nHelp: " ++ help ++ "\n"

/-- What a run tells and how it ends. -/
abbrev Telling := List Event × Except ScriptError Outcome

/-- Whether a run ends because its time is over. -/
def Telling.isLate (telling : Telling) : Bool :=
  match telling.2 with
  | .ok (.failed ⟨_, .timeLimit _⟩ _) => true
  | _ => false

/-- The answer to a run that is over: what was heard of it, and the store or the error. -/
def Telling.response (options : Options) (telling : Telling) : Response :=
  let heard := telling.1.filter fun event => options.level.hears event.level
  let log := joinLines (heard.map fun event => "[" ++ event.level.text ++ "] " ++ event.text)
  match telling.2 with
  | .error error => { exitCode := 1, stderr := log ++ error.report }
  | .ok (.failed error _) => { exitCode := 1, stderr := log ++ error.report }
  | .ok .unfinished => { exitCode := 1, stderr := log ++ "The script did not come to an end.\n" }
  | .ok (.finished machine) =>
    { exitCode := 0
      stdout := if options.dump then joinLines (dumpLines machine.env.store) else ""
      stderr := log }

/-- The answer to a file that cannot be read. -/
def unreadableResponse (file reason : String) : Response :=
  { exitCode := 1, stderr := "Error reading file '" ++ file ++ "': " ++ reason ++ "\n" }

/-- The script found under the file's name, or the answer if there is none. -/
def Content.source (file : String) : Content → Except Response String
  | missing => .error { exitCode := 1, stderr := "Error: File '" ++ file ++ "' not found\n" }
  | unreadable reason => .error (unreadableResponse file reason)
  | bytes data =>
    match String.fromUTF8? data with
    | some source => .ok source
    | none => .error (unreadableResponse file "stream did not contain valid UTF-8")

/-- The answer to what is found under the file's name. -/
def respond (rounds : Nat) (file : String) (options : Options) (content : Content) : Response :=
  match content.source file with
  | .error response => response
  | .ok source => Telling.response options (narrate options.limits rounds source)

end NumericScript
