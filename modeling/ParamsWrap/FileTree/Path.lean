import ParamsWrap.Text.Lossy

/-!
# Paths

A path is the bytes that the system is given. It is read as names between slashes. Two paths are
alike when they name the same steps from the same start, whatever the number of slashes between
them; no step is taken back.
-/

namespace ParamsWrap

/-- A name in a directory. -/
abbrev Name := Bytes

def Name.here : Name := [0x2E]

def Name.above : Name := [0x2E, 0x2E]

structure Path where
  bytes : Bytes
deriving DecidableEq

namespace Path

def slash : UInt8 := 0x2F

def ofText (t : Text) : Path :=
  ⟨t.encode⟩

/-- The path as messages show it. -/
def display (p : Path) : String :=
  String.ofList (Lossy.decode p.bytes)

/-- All that stands between slashes, empty names included. -/
def split : Bytes → List Name
  | [] => [[]]
  | b :: rest =>
    if b = slash then [] :: split rest
    else match split rest with
      | [] => [[b]]
      | n :: names => (b :: n) :: names

def names (p : Path) : List Name :=
  (split p.bytes).filter (· ≠ [])

def isAbsolute (p : Path) : Bool :=
  p.bytes.head? = some slash

def endsInSlash (p : Path) : Bool :=
  p.bytes.getLast? = some slash

/-- The steps of a path: a relative path may begin at `.`, and no later `.` is a step. -/
def steps (p : Path) : List Name :=
  let moves := p.names.filter (· ≠ Name.here)
  if !p.isAbsolute && p.names.head? = some Name.here then Name.here :: moves else moves

/-- The paths take the same steps from the same start. -/
def alike (p q : Path) : Bool :=
  p.isAbsolute = q.isAbsolute && p.steps = q.steps

end Path

end ParamsWrap
