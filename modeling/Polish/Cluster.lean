import Polish.Token

namespace Polish

/-- An introducer and the words that follow it up to the next introducer. -/
structure Cluster where
  introducer : Introducer
  operands : List String
  deriving DecidableEq, Repr

namespace Cluster

def words (cluster : Cluster) : List String :=
  cluster.introducer.word :: cluster.operands

/-- Puts one more word in front of a cut list.  The first component holds the
words that have no introducer before them. -/
def pushWord (word : String) (cut : List String × List Cluster) :
    List String × List Cluster :=
  match Token.ofWord word with
  | .introducer introducer => ([], ⟨introducer, cut.1⟩ :: cut.2)
  | _ => (word :: cut.1, cut.2)

/-- The words before the first introducer, and the clusters after them. -/
def split (words : List String) : List String × List Cluster :=
  words.foldr pushWord ([], [])

@[simp] theorem split_nil : split [] = ([], []) :=
  rfl

@[simp] theorem split_cons (word : String) (words : List String) :
    split (word :: words) = pushWord word (split words) :=
  rfl

end Cluster

end Polish
