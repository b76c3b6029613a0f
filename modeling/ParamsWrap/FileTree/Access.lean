import ParamsWrap.FileTree.Walk

/-!
# Reading and changing a file tree

What changes a tree leaves one in any case, and tells why it stopped if it did: what was done before
a fault stays done. A file is written in two steps. It is opened, which makes it or empties it, and
then the bytes are put into it.
-/

namespace ParamsWrap

/-- What is seen at a path. -/
inductive Sight where
  | dir
  | text (t : Text)
  | bytes (content : Bytes)
  | missing
deriving DecidableEq

namespace FileTree

def read (tree : FileTree) (p : Path) : Except Fault Bytes :=
  match tree.find p with
  | .error f => .error f
  | .ok (_, .dir) => .error .isDirectory
  | .ok (_, .file content) => .ok content

def look (tree : FileTree) (p : Path) : Sight :=
  match tree.find p with
  | .error _ => .missing
  | .ok (_, .dir) => .dir
  | .ok (_, .file content) =>
    match Text.decode? content with
    | some t => .text t
    | none => .bytes content

/-- Opens the file for writing. It is made if it is not there, and emptied if `anew` asks for that. -/
def openFile (tree : FileTree) (p : Path) (anew : Bool) : Except Fault Location × FileTree :=
  match tree.target p with
  | .error f => (.error f, tree)
  | .ok ⟨l, h⟩ =>
    if anew ∨ tree.entryAt? l = none then (.ok l, tree.insert l (.file []) h) else (.ok l, tree)

/-- Puts the bytes behind the content of the file at a location. -/
def extend (tree : FileTree) (l : Location) (more : Bytes) : FileTree :=
  match h : tree.entryAt? l with
  | some (.file content) => tree.insert l (.file (content ++ more)) (takes_of_file h)
  | _ => tree

/-- Opens the file and puts the bytes into it. -/
def output (tree : FileTree) (p : Path) (anew : Bool) (content : Bytes) : Except Fault Unit × FileTree :=
  match tree.openFile p anew with
  | (.error f, tree) => (.error f, tree)
  | (.ok l, tree) => (.ok (), tree.extend l content)

def write (tree : FileTree) (p : Path) (content : Bytes) : Except Fault Unit × FileTree :=
  tree.output p true content

def append (tree : FileTree) (p : Path) (more : Bytes) : Except Fault Unit × FileTree :=
  tree.output p false more

/-- Makes the directories that the names lead through. A name before nothing but `.` is not made,
and once a directory was made a file in the way is met as one that exists already. -/
def makeDirsAlong (tree : FileTree) (made : Bool) (l : Location) :
    List Name → Except Fault Unit × FileTree
  | [] => (.ok (), tree)
  | n :: rest =>
    let idle := rest ≠ [] ∧ rest.all (· = Name.here)
    if n = Name.above then makeDirsAlong tree made l.dropLast rest
    else if hn : n.IsProper then
      if hdir : tree.entryAt? l = some .dir then
        if longestName < n.length then (.error .nameTooLong, tree)
        else match hentry : tree.entryAt? (l ++ [n]) with
          | some .dir => makeDirsAlong tree made (l ++ [n]) rest
          | some (.file _) =>
            if rest = [] ∨ made ∧ ¬ idle then (.error .alreadyExists, tree)
            else (.error .notDirectory, tree)
          | none =>
            if idle then (.error .notFound, tree)
            else
              let tree := tree.insert (l ++ [n]) .dir (takes_concat hn hdir (by rw [hentry]; exact nofun))
              makeDirsAlong tree true (l ++ [n]) rest
      else (.error .notFound, tree)
    else makeDirsAlong tree made l rest

def makeDirs (tree : FileTree) (p : Path) : Except Fault Unit × FileTree :=
  if 0 ∈ p.bytes then (.error .zeroByte, tree)
  else if longestPath < p.bytes.length then (.error .nameTooLong, tree)
  else makeDirsAlong tree false (tree.origin p) p.names

/-- Removes the file, or the directory with all that it holds. A directory is emptied before it is
removed by the path's last name, and neither `.` nor `..` can remove it. -/
def remove (tree : FileTree) (p : Path) : Except Fault Unit × FileTree :=
  match tree.find p with
  | .error f => (.error f, tree)
  | .ok (l, .file _) => (.ok (), tree.prune l.reaches l.sweeps_reaches)
  | .ok (l, .dir) =>
    let emptied := tree.prune l.below l.sweeps_below
    match emptied.place p with
    | .ok (.name ..) => (.ok (), emptied.prune l.reaches l.sweeps_reaches)
    | .error _ => (.ok (), emptied)
    | .ok (.dir _) =>
      if p.names.getLast? = some Name.above then (.error .directoryNotEmpty, emptied)
      else (.error .invalidArgument, emptied)

/-- Puts an entry at a path, and makes the directories that lead to it. -/
def plant (tree : FileTree) (p : Path) : Entry → FileTree
  | .dir => (tree.makeDirs p).2
  | .file content =>
    let parent := (p.bytes.reverse.dropWhile (· ≠ Path.slash)).reverse
    ((tree.makeDirs ⟨parent⟩).2.write p content).2

end FileTree

end ParamsWrap
