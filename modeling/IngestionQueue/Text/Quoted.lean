import IngestionQueue.Bytes.Hex

/-!
# Quoted text in messages

A value that a message repeats stands between double quotes. The quote, the backslash and the usual control
characters are escaped with a backslash, other characters that print nothing as their number in braces.
-/

namespace IngestionQueue.Text

/-- Characters that print nothing of their own: controls, format characters and private use. -/
def isUnprintable (c : Char) : Bool :=
  let n := c.toNat
  n < 0x20 || (0x7F ≤ n && n < 0xA0) || n == 0xAD || n == 0x61C || n == 0x180E ||
    (0x200B ≤ n && n ≤ 0x200F) || (0x2028 ≤ n && n ≤ 0x202E) || (0x2060 ≤ n && n ≤ 0x206F) ||
    (0xE000 ≤ n && n ≤ 0xF8FF) || n == 0xFEFF || 0xE0000 ≤ n

def quoteChar (c : Char) : List Char :=
  match c with
  | '\x00' => ['\\', '0']
  | '\t' => ['\\', 't']
  | '\n' => ['\\', 'n']
  | '\r' => ['\\', 'r']
  | '"' => ['\\', '"']
  | '\\' => ['\\', '\\']
  | c =>
    if isUnprintable c then
      '\\' :: 'u' :: '\x7b' :: ((Nat.toDigits 16 c.toNat).map Char.toLower ++ ['\x7d'])
    else [c]

def quoted (s : String) : String :=
  String.ofList ('"' :: (s.toList.flatMap quoteChar ++ ['"']))

end IngestionQueue.Text
