import Polish.Fragment

/-!
Parsing a word list, with or without recovery.

A parser works on one stack of fragments and one set of names for all its
statements, and keeps them from one parse to the next.  It empties the stack
before each cluster, as one that does not parse leaves fragments behind.

The names of the recovery modes are for settings that come from outside.
`Recovery.unknownName` is what a reader of settings says of any other name.  It
stands for a message from outside too, and no other definition uses it.
-/

namespace Polish

/-- What to do with a statement that does not parse. -/
inductive Recovery where
  | abort
  | skipStatement
  deriving DecidableEq, Repr

namespace Recovery

def name : Recovery → String
  | abort => "abort"
  | skipStatement => "skip_statement"

def all : List Recovery :=
  [abort, skipStatement]

def ofName? (name : String) : Option Recovery :=
  all.find? (·.name == name)

def unknownName (name : String) : String :=
  "unknown variant `" ++ name ++ "`, expected `" ++ abort.name ++ "` or `" ++
    skipStatement.name ++ "`"

end Recovery

namespace Cluster

def error? (cluster : Cluster) : Option ParseError :=
  match cluster.parse with
  | .ok _ => none
  | .error e => some e

/-- The clusters that do not parse, each with its error. -/
def skipped (clusters : List Cluster) : List (Cluster × ParseError) :=
  clusters.filterMap fun cluster => cluster.error?.map fun e => (cluster, e)

end Cluster

structure Parser where
  recovery : Recovery := .abort
  /-- The errors that the last parse skipped over, in order. -/
  diagnostics : List ParseError := []
  /-- The names met so far, each once. -/
  names : List String := []
  /-- The fragments of the cluster at hand, the nearest on top. -/
  stack : List Fragment := []
  deriving DecidableEq, Repr

/-- What a parser does.  An action that fails may have changed the parser. -/
abbrev Parsing := ExceptT ParseError (StateM Parser)

namespace Parsing

def run {α : Type} (action : Parsing α) (parser : Parser) : Except ParseError α × Parser :=
  StateT.run (ExceptT.run action) parser

def push (fragment : Fragment) : Parsing Unit :=
  modify fun parser => { parser with stack := fragment :: parser.stack }

/-- Takes the top fragment as an operand of a word. -/
def pop (word : String) : Parsing Fragment := do
  match (← get).stack with
  | [] => throw (.missingOperand word)
  | fragment :: stack =>
      modify fun parser => { parser with stack }
      return fragment

/-- The name that stands for all names of the same spelling. -/
def intern (name : String) : Parsing String := do
  match (← get).names.find? (· == name) with
  | some interned => return interned
  | none =>
      modify fun parser => { parser with names := name :: parser.names }
      return name

def fragmentOf (word : String) : Token → Parsing Fragment
  | .integer value => return .expr (.const value) 1
  | .identifier name => return .target (← intern name)
  | .binary op => do
      let left ← pop word
      let right ← pop word
      Fragment.operation word (max left.depth right.depth)
        (.binary op left.toExpr right.toExpr)
  | .unary op => do
      let operand ← pop word
      Fragment.operation word operand.depth (.unary op operand.toExpr)
  | .introducer _ => throw (.illegalToken word)
  | .illegal => throw (.illegalToken word)

def takeWord (word : String) : Parsing Unit := do
  push (← fragmentOf word (Token.ofWord word))

def takeWords (words : List String) : Parsing Unit :=
  words.reverse.forM takeWord

def statementOf : Introducer → Parsing Statement
  | .assign => do
      match ← pop Introducer.assign.word with
      | .target name => return .assign name (← pop Introducer.assign.word).toExpr
      | .expr found _ => throw (.notAVariable found)
  | .print => return .print (← pop Introducer.print.word).toExpr

def takeCluster (cluster : Cluster) : Parsing Statement := do
  modify fun parser => { parser with stack := [] }
  takeWords cluster.operands
  let statement ← statementOf cluster.introducer
  Statement.finish statement (← get).stack

/-- Ends the parse with an error, or keeps the error and goes on. -/
def recover (error : ParseError) : Parsing Unit := do
  match (← get).recovery with
  | .abort => throw error
  | .skipStatement =>
      modify fun parser => { parser with diagnostics := parser.diagnostics ++ [error] }

def addCluster (statements : Array Statement) (cluster : Cluster) :
    Parsing (Array Statement) :=
  tryCatch (statements.push <$> takeCluster cluster) fun error => do
    recover error
    return statements

def takeProgram (words : List String) : Parsing Program := do
  modify fun parser => { parser with diagnostics := [] }
  match Cluster.split words with
  | (word :: _, _) => throw (.missingIntroducer word)
  | ([], clusters) => return (← clusters.foldlM addCluster #[]).toList

end Parsing

namespace Parser

/-- Parses a word list.  The diagnostics of the parse before are forgotten. -/
def parse (parser : Parser) (words : List String) : Except ParseError Program × Parser :=
  (Parsing.takeProgram words).run parser

def parseAll (parser : Parser) (inputs : List (List String)) : Parser :=
  inputs.foldl (fun parser words => (parser.parse words).2) parser

end Parser

/-- The program that a word list spells, if all of it parses. -/
def Program.ofWords (words : List String) : Except ParseError Program :=
  (({} : Parser).parse words).1

end Polish
