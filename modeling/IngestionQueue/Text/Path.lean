/-!
# Slash-separated paths

A path is cut at `/` into segments. Empty segments and the segment `.` name nothing, so the names of a path
are the segments that are left. The last name, unless it is `..`, is the file name, and its extension is what
follows its last dot.
-/

namespace IngestionQueue.Path

abbrev Name := List Char

/-- The pieces between the characters that satisfy `isCut`, empty pieces included. -/
def splitAt (isCut : Char → Bool) : List Char → List Name
  | [] => [[]]
  | c :: cs =>
    if isCut c then [] :: splitAt isCut cs
    else match splitAt isCut cs with
      | [] => [[c]]
      | s :: ss => (c :: s) :: ss

def segments (path : List Char) : List Name :=
  splitAt (· == '/') path

/-- The segments that name something. -/
def names (path : List Char) : List Name :=
  (segments path).filter fun s => !(s.isEmpty || s == ['.'])

def isAbsolute (path : List Char) : Bool :=
  path.head? == some '/'

/-- Whether some segment steps to the parent. -/
def climbs (path : List Char) : Bool :=
  (names path).contains ['.', '.']

/-- The last name of a path, where that is a name and not a step to the parent. -/
def fileName? (path : List Char) : Option Name :=
  match (names path).getLast? with
  | some ['.', '.'] => none
  | name => name

/-- What follows the last dot of a name, unless that dot is missing or is the first character. -/
def Name.extension? (name : Name) : Option Name :=
  let after := (name.reverse.takeWhile (· != '.')).reverse
  let before := name.length - after.length - 1
  if after.length == name.length || before == 0 then none else some after

def extension? (path : List Char) : Option Name :=
  (fileName? path).bind Name.extension?

end IngestionQueue.Path
