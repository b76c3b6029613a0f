/-!
# What the file system answers

The causes for which the file system, or the reading of a file as text, turns a request down. A file
tree knows the named ones; a disk may have others, which come with the system's number and words.
-/

namespace ParamsWrap

inductive Fault where
  | notFound
  | isDirectory
  | notDirectory
  | nameTooLong
  | zeroByte
  | notUtf8
  | alreadyExists
  | directoryNotEmpty
  | invalidArgument
  | other (code : Nat) (words : String)
deriving DecidableEq, Repr

def Fault.message : Fault → String
  | notFound => "No such file or directory (os error 2)"
  | isDirectory => "Is a directory (os error 21)"
  | notDirectory => "Not a directory (os error 20)"
  | nameTooLong => "File name too long (os error 36)"
  | zeroByte => "file name contained an unexpected NUL byte"
  | notUtf8 => "stream did not contain valid UTF-8"
  | alreadyExists => "File exists (os error 17)"
  | directoryNotEmpty => "Directory not empty (os error 39)"
  | invalidArgument => "Invalid argument (os error 22)"
  | other code words => words ++ " (os error " ++ toString code ++ ")"

end ParamsWrap
