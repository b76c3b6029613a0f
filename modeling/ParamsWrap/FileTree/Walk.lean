import ParamsWrap.FileTree.Basic

/-!
# Walking a path

A path is walked from the left, from the root or from the working directory. Each name but the last
must lead into a directory, and the first that does not decides the fault. The last name is then
looked up for reading, or taken as the place to write. No name is found in a directory that is gone,
and none can be put there, but the way up from it is still open.
-/

namespace ParamsWrap

/-- Longest name and longest path, in bytes. -/
def longestName : Nat := 255

def longestPath : Nat := 4095

/-- Where a path ends before its last name is looked up: in a directory that needs no looking up, or
at a name in a directory. -/
inductive Place where
  | dir (l : Location)
  | name (parent : Location) (last : Name) (hlast : last.IsProper)
deriving DecidableEq

namespace FileTree

/-- The entry of a name in the directory at a location. -/
def lookUp (tree : FileTree) (l : Location) (n : Name) : Except Fault Entry :=
  if tree.entryAt? l ≠ some .dir then .error .notFound
  else if longestName < n.length then .error .nameTooLong
  else match tree.entryAt? (l ++ [n]) with
    | none => .error .notFound
    | some e => .ok e

/-- The directory that a name leads to. Only a proper name is looked up. -/
def enter (tree : FileTree) (l : Location) (n : Name) : Except Fault Location :=
  if n = Name.above then .ok l.dropLast
  else if n.IsProper then
    match tree.lookUp l n with
    | .error f => .error f
    | .ok (.file _) => .error .notDirectory
    | .ok .dir => .ok (l ++ [n])
  else .ok l

def origin (tree : FileTree) (p : Path) : Location :=
  if p.isAbsolute then [] else tree.home

/-- Enters all names but the last, if that is a proper one. -/
def walk (tree : FileTree) (l : Location) : List Name → Except Fault Place
  | [] => .ok (.dir l)
  | n :: rest =>
    if hn : n.IsProper ∧ rest = [] then .ok (.name l n hn.1)
    else match tree.enter l n with
      | .error f => .error f
      | .ok l => walk tree l rest

def place (tree : FileTree) (p : Path) : Except Fault Place :=
  if 0 ∈ p.bytes then .error .zeroByte
  else if p.bytes = [] then .error .notFound
  else if longestPath < p.bytes.length then .error .nameTooLong
  else tree.walk (tree.origin p) p.names

/-- The entry that a path leads to. A slash behind the last name asks for a directory. -/
def find (tree : FileTree) (p : Path) : Except Fault (Location × Entry) :=
  match tree.place p with
  | .error f => .error f
  | .ok (.dir l) => .ok (l, .dir)
  | .ok (.name l n _) =>
    match tree.lookUp l n with
    | .error f => .error f
    | .ok .dir => .ok (l ++ [n], .dir)
    | .ok (.file content) =>
      if p.endsInSlash then .error .notDirectory else .ok (l ++ [n], .file content)

/-- The location that a write to the path creates or replaces. -/
def target (tree : FileTree) (p : Path) : Except Fault {l : Location // tree.Takes l} :=
  match tree.place p with
  | .error f => .error f
  | .ok (.dir _) => .error .isDirectory
  | .ok (.name l n hn) =>
    if p.endsInSlash then .error .isDirectory
    else if hparent : tree.entryAt? l = some .dir then
      if longestName < n.length then .error .nameTooLong
      else if hdir : tree.entryAt? (l ++ [n]) = some .dir then .error .isDirectory
      else .ok ⟨l ++ [n], takes_concat hn hparent hdir⟩
    else .error .notFound

end FileTree

end ParamsWrap
