import Polish.Options

namespace Polish

inductive Source where
  | standardInput
  | file (path : String)
  deriving DecidableEq, Repr

inductive ReadFault where
  | notFound
  | notADirectory
  | isADirectory
  | notText
  | other (message : String)
  deriving DecidableEq, Repr

def ReadFault.message : ReadFault → String
  | notFound => "No such file or directory (os error 2)"
  | notADirectory => "Not a directory (os error 20)"
  | isADirectory => "Is a directory (os error 21)"
  | notText => "stream did not contain valid UTF-8"
  | other message => message

/-- The source that a command line names.  A lone minus sign means standard
input. -/
def Options.source (options : Options) : Source :=
  match options.path with
  | none => .standardInput
  | some path => if path = "-" then .standardInput else .file path

namespace Source

def activity : Source → String
  | standardInput => "Reading stdin"
  | file path => "Reading " ++ path

def decode (bytes : ByteArray) : Except ReadFault String :=
  match String.fromUTF8? bytes with
  | some text => .ok text
  | none => .error .notText

end Source

end Polish
