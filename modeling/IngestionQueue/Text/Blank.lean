/-!
# White space

`isBlank` is the Unicode property `White_Space`. It decides where a text is trimmed, when a field counts as
empty, and where one word ends and the next begins.
-/

namespace IngestionQueue.Text

/-- Membership in the Unicode property `White_Space`. -/
def isBlank (c : Char) : Bool :=
  let n := c.toNat
  (0x09 ≤ n && n ≤ 0x0D) || n == 0x20 || n == 0x85 || n == 0xA0 || n == 0x1680 ||
    (0x2000 ≤ n && n ≤ 0x200A) || n == 0x2028 || n == 0x2029 || n == 0x202F || n == 0x205F || n == 0x3000

/-- A text without the white space at its end. -/
def trimEnd (cs : List Char) : List Char :=
  (cs.reverse.dropWhile isBlank).reverse

/-- A text without the white space at its two ends. -/
def trimChars (cs : List Char) : List Char :=
  trimEnd (cs.dropWhile isBlank)

def trim (s : String) : String :=
  String.ofList (trimChars s.toList)

/-- Whether a text holds nothing but white space. -/
def isBlankText (s : String) : Bool :=
  s.toList.all isBlank

/-- The pieces between white space characters, empty pieces included. -/
def splitAtBlanks : List Char → List (List Char)
  | [] => [[]]
  | c :: cs =>
    if isBlank c then [] :: splitAtBlanks cs
    else match splitAtBlanks cs with
      | [] => [[c]]
      | w :: ws => (c :: w) :: ws

/-- The maximal runs of characters other than white space, in order. -/
def words (cs : List Char) : List (List Char) :=
  (splitAtBlanks cs).filter fun w => !w.isEmpty

def wordCount (s : String) : Nat :=
  (words s.toList).length

end IngestionQueue.Text
