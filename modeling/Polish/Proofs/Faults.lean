import Polish.Proofs.Clustering
import Polish.Proofs.ParserState
import Polish.Proofs.Reduction

/-!
What is wrong with a cluster.

The words of a cluster are judged from the last to the first, each by those after
it: how many operands they offer, and how deep the expression is that the word
opens.  The first word with a fault decides.  If there is none, the words spell
expressions one after the other, and their number has to suit the introducer.
-/

namespace Polish

namespace Token

def isOperand : Token → Bool
  | identifier _ | integer _ => true
  | _ => false

def isBinary : Token → Bool
  | binary _ => true
  | _ => false

end Token

/-- The number of operands among the words less that of binary operators. -/
def surplus (words : List String) : Int :=
  words.countP (fun word => (Token.ofWord word).isOperand) -
    words.countP (fun word => (Token.ofWord word).isBinary)

/-- What can be wrong with a word that stands before the given others. -/
inductive Fault (word : String) (rest : List String) : ParseError → Prop where
  | illegal (hword : Token.ofWord word = .illegal) : Fault word rest (.illegalToken word)
  | binary {op : BinaryOp} (hword : Token.ofWord word = .binary op) (hrest : surplus rest < 2) :
      Fault word rest (.missingOperand word)
  | unary {op : UnaryOp} (hword : Token.ofWord word = .unary op) (hrest : surplus rest < 1) :
      Fault word rest (.missingOperand word)
  /-- The word opens an expression with one level too many. -/
  | tooDeep {e : Expr} {front back : List String} (hwords : word :: rest = front ++ back)
      (hfront : e.SpelledBy front) (hdepth : e.depth = depthLimit + 1) :
      Fault word rest (.tooDeep word depthLimit)

namespace Fragment

end Fragment

namespace Cluster

end Cluster

namespace Statement

end Statement

namespace Cluster

end Cluster

namespace Parser

end Parser

end Polish
