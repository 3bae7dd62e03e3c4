/-!
# Words in a text

Taking a word off the beginning of a text, as often as it is there, and looking for it anywhere.
-/

namespace IngestionQueue.Text

/-- A text without the copies of a word at its beginning. -/
def withoutLeading (word cs : List Char) : List Char :=
  Nat.repeat (fun cs => if word.isPrefixOf cs then cs.drop word.length else cs) cs.length cs

/-- Whether a word occurs in a text. -/
def hasWord (word : List Char) : List Char → Bool
  | [] => word.isEmpty
  | c :: cs => word.isPrefixOf (c :: cs) || hasWord word cs

end IngestionQueue.Text
