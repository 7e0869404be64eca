import Polish.Session
import Polish.Source
import Polish.Words

namespace Polish

namespace CommandLine

structure Outcome where
  exitCode : Nat
  stdout : String
  stderr : String
  deriving DecidableEq, Repr

/-- What keeps the program from parsing anything. -/
inductive Refusal where
  | arguments (error : ArgumentError)
  | reading (source : Source) (fault : ReadFault)
  | unknownBackend (name : String)
  deriving DecidableEq, Repr

namespace Refusal

def message : Refusal → String
  | arguments error => error.message
  | reading source _ => source.activity
  | unknownBackend name => "Unknown backend '" ++ name ++ "'"

def cause? : Refusal → Option String
  | reading _ fault => some fault.message
  | _ => none

def text (refusal : Refusal) : String :=
  "Error: " ++ refusal.message ++ "\n" ++
    match refusal.cause? with
    | none => ""
    | some cause => "\nCaused by:\n    " ++ cause ++ "\n"

end Refusal

def engines : Selection → Except Refusal (List Engine)
  | .all => .ok Engine.all
  | .one name =>
      match Engine.ofName? name with
      | some engine => .ok [engine]
      | none => .error (.unknownBackend name)

/-- The sections that options ask for before the program runs. -/
def sections (options : Options) (program : Program) : String :=
  (if options.showTree then
    "The program, with expressions in infix notation:\n\n" ++ program.text ++ "\n"
  else
    "") ++
  (if options.showCode then
    "Compiled code:\n" ++ program.compile.text ++ "\n"
  else
    "")

def drive (options : Options) (engines : List Engine) (text : String) : Outcome :=
  let parsed := ({ recovery := options.recovery } : Session).parse (words text)
  let console := ({} : Console).recordAll (Action.events parsed.actions)
  match parsed.result with
  | none =>
      { exitCode := 1
        stdout := ""
        stderr := console.diagnostics.written }
  | some program =>
      let ran := parsed.session.executeAll program (engines.map Engine.backend)
      let console := console.recordAll (Action.events ran.1)
      { exitCode := if ran.2.failed then 1 else 0
        stdout := sections options program ++ console.display.written
        stderr := console.diagnostics.written }

/-- Everything that has to be known before parsing, in order: the options, the
text of the source and the engines. -/
def prepare (arguments : List String) (contents : Source → Except ReadFault ByteArray) :
    Except Refusal (Options × String × List Engine) := do
  let options ← (Options.ofArguments arguments).mapError .arguments
  let text ← (contents options.source >>= Source.decode).mapError (.reading options.source)
  let engines ← engines options.selection
  return (options, text, engines)

def run (arguments : List String) (contents : Source → Except ReadFault ByteArray) : Outcome :=
  match prepare arguments contents with
  | .error refusal => { exitCode := 1, stdout := "", stderr := refusal.text }
  | .ok (options, text, engines) => drive options engines text

end CommandLine

end Polish
