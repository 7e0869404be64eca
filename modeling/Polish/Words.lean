import Polish.Blank

namespace Polish

/-- The words of a text: its maximal runs of characters that are not blank, from
left to right. -/
def words (text : String) : List String :=
  ((text.toList.splitOnP isBlank).filter (!·.isEmpty)).map String.ofList

end Polish
