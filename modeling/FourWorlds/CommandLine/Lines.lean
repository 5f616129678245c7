/-! # Lines of input

Input is a sequence of bytes. A line ends at a line feed, and a carriage return just before the line
feed belongs to the end as well; what follows the last line feed is a line too, unless it is empty.
Lines are read as UTF-8, up to the first one that is not.

* `byteLines`: the lines, as bytes.
* `readableLines`: the lines before the first one that is not UTF-8, as texts. -/

namespace FourWorlds

/-- A line without the carriage return at its end, if it has one. -/
def dropReturn (line : List UInt8) : List UInt8 :=
  if line.getLast? = some 13 then line.dropLast else line

/-- The lines of some bytes after the bytes already seen of the first line, latest first. -/
def byteLinesAfter (seen : List UInt8) : List UInt8 → List (List UInt8)
  | [] => if seen.isEmpty then [] else [seen.reverse]
  | byte :: rest =>
    if byte = 10 then dropReturn seen.reverse :: byteLinesAfter [] rest
    else byteLinesAfter (byte :: seen) rest

/-- The lines of some bytes. -/
def byteLines (bytes : List UInt8) : List (List UInt8) := byteLinesAfter [] bytes

/-- The text that some bytes are the UTF-8 form of, if there is one. -/
def textOfBytes? (bytes : List UInt8) : Option String := String.fromUTF8? ⟨bytes.toArray⟩

/-- The lines of some bytes before the first line that is not UTF-8. -/
def readableLines (bytes : List UInt8) : List String :=
  ((byteLines bytes).map textOfBytes?).takeWhile (·.isSome) |>.filterMap id

end FourWorlds
