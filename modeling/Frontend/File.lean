/-!
# Files

What can go wrong when a file is read, in the words of the operating system, and the text of
its bytes.
-/

namespace Frontend

/-- Why the text of a file cannot be had. -/
inductive FileError where
  | notFound
  | notADirectory
  | isADirectory
  | notText
  /-- Anything else, with its message. -/
  | other (message : String)
deriving DecidableEq

namespace FileError

/-- The message of the operating system. -/
def message : FileError → String
  | notFound => "No such file or directory (os error 2)"
  | notADirectory => "Not a directory (os error 20)"
  | isADirectory => "Is a directory (os error 21)"
  | notText => "stream did not contain valid UTF-8"
  | other text => text

end FileError

/-- The text written by some bytes. -/
def textOfBytes (bytes : ByteArray) : Except FileError String :=
  match String.fromUTF8? bytes with
  | some s => .ok s
  | none => .error .notText

end Frontend
