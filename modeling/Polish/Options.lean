import Polish.Parser

namespace Polish

inductive Selection where
  | one (name : String)
  | all
  deriving DecidableEq, Repr

def Selection.ofName (name : String) : Selection :=
  if name = "all" then all else one name

structure Options where
  selection : Selection := .one "interpreter"
  recovery : Recovery := .abort
  showTree : Bool := false
  showCode : Bool := false
  path : Option String := none
  deriving DecidableEq, Repr

inductive ArgumentError where
  | missingBackendName (flag : String)
  | unknownFlag (flag : String)
  | secondPath
  deriving DecidableEq, Repr

def ArgumentError.message : ArgumentError → String
  | missingBackendName flag => "Missing backend name after " ++ flag
  | unknownFlag flag => "Unknown flag '" ++ flag ++ "'"
  | secondPath => "Only one input file is supported"

/-- The role of a word in an argument list, if it is not a backend name. -/
inductive Argument where
  | backend
  | recover
  | tree
  | code
  | unknownFlag
  | path
  deriving DecidableEq, Repr

def Argument.ofWord (word : String) : Argument :=
  if word = "--backend" ∨ word = "-b" then backend
  else if word = "--recover" then recover
  else if word = "--tree" then tree
  else if word = "--code" then code
  else if word ≠ "-" ∧ word.toList.head? = some '-' then unknownFlag
  else path

namespace Options

def read (options : Options) : List String → Except ArgumentError Options
  | [] => .ok options
  | word :: words =>
      match Argument.ofWord word with
      | .backend =>
          match words with
          | [] => .error (.missingBackendName word)
          | name :: words => read { options with selection := .ofName name } words
      | .recover => read { options with recovery := .skipStatement } words
      | .tree => read { options with showTree := true } words
      | .code => read { options with showCode := true } words
      | .unknownFlag => .error (.unknownFlag word)
      | .path =>
          match options.path with
          | some _ => .error .secondPath
          | none => read { options with path := some word } words

def ofArguments (words : List String) : Except ArgumentError Options :=
  read {} words

end Options

end Polish
