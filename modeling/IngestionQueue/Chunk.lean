import IngestionQueue.Error
import IngestionQueue.Text.Blank

/-!
# Cutting a text into chunks

A text is trimmed and cut into windows of at most `size` characters. Each window begins `overlap` characters
before the end of the one before it, but at least one character after its beginning, and the last window ends
with the text. A chunk is the content of a window, trimmed; a window of white space gives none.
-/

namespace IngestionQueue.Chunk

/-- The characters from `start` up to `stop`. -/
structure Window where
  start : Nat
  stop : Nat
  deriving DecidableEq, Repr

/-- The windows from `start` on, over a text of `length` characters. -/
def windowsFrom (size overlap length start : Nat) : List Window :=
  let stop := min (start + size) length
  if h : length ≤ stop then [⟨start, stop⟩]
  else ⟨start, stop⟩ :: windowsFrom size overlap length (max (stop - overlap) (start + 1))
termination_by length - start
decreasing_by omega

/-- The windows over a trimmed text; an empty text and windows of no characters give none. -/
def windows (size overlap length : Nat) : List Window :=
  if length = 0 || size = 0 then [] else windowsFrom size overlap length 0

def Window.slice (w : Window) (cs : List Char) : List Char :=
  (cs.drop w.start).take (w.stop - w.start)

/-- The chunks of a text, whatever the sizes are. -/
def chunkText (text : String) (size overlap : Nat) : List String :=
  let cs := Text.trimChars text.toList
  (windows size overlap cs.length).filterMap fun w =>
    let piece := Text.trimChars (w.slice cs)
    if piece.isEmpty then none else some (String.ofList piece)

end IngestionQueue.Chunk

namespace IngestionQueue

/-- How long a chunk may be, and how far it reaches back into the one before it. -/
structure ChunkConfig where
  chunkSize : Nat
  overlap : Nat
  deriving DecidableEq, Repr

namespace ChunkConfig

def default : ChunkConfig := ⟨900, 120⟩

/-- A chunk holds at least one character and the overlap is shorter than a chunk. -/
def check (chunkSize overlap : Nat) : Except DomainError ChunkConfig :=
  if chunkSize = 0 ∨ chunkSize ≤ overlap then .error (.invalidChunkConfig chunkSize overlap)
  else .ok ⟨chunkSize, overlap⟩

def chunk (c : ChunkConfig) (text : String) : List String :=
  Chunk.chunkText text c.chunkSize c.overlap

end ChunkConfig

end IngestionQueue
