import ParamsWrap.FileTree.Fault
import ParamsWrap.FileTree.Path

/-!
# Why an edit fails

A file that is not there when it is to be read is told apart from every other fault. The error keeps
the path as it was given.
-/

namespace ParamsWrap

inductive EditError where
  | fileNotFound (path : Path)
  | io (path : Path) (fault : Fault)
deriving DecidableEq

namespace EditError

def ofRead (p : Path) : Fault → EditError
  | .notFound => fileNotFound p
  | f => io p f

def path : EditError → Path
  | fileNotFound p => p
  | io p _ => p

/-- The fault behind the error, where the message tells one. -/
def fault? : EditError → Option Fault
  | fileNotFound _ => none
  | io _ f => some f

def message : EditError → String
  | fileNotFound p => "file not found: " ++ p.display
  | io p f => "I/O error on " ++ p.display ++ ": " ++ f.message

end EditError

end ParamsWrap
