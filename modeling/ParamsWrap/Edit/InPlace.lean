import ParamsWrap.Call.Located
import ParamsWrap.Edit.Error
import ParamsWrap.FileTree.Access

/-!
# Wrapping a file in place

An edit goes from the snapshot of a file's text to the wrapped text, and from there to the file
again. Neither a snapshot nor a wrapped text follows what happens to the file meanwhile; saving puts
the wrapped text in the place of whatever the file then holds, also when nothing was wrapped. An edit
reaches files by reading and writing them alone, be they those of a file tree or of a disk.
-/

namespace ParamsWrap

/-- The text of a file at the moment of loading. -/
structure Snapshot where
  path : Path
  text : Text
deriving DecidableEq

/-- A snapshot after its calls were wrapped. -/
structure Wrapped where
  path : Path
  text : Text
  count : Nat
  changed : Bool
deriving DecidableEq

/-- What is told of a saved file: the number of its calls, and whether wrapping them made another
text. -/
structure Summary where
  file : Path
  count : Nat
  changed : Bool
deriving DecidableEq

def Snapshot.wrap (s : Snapshot) : Wrapped where
  path := s.path
  text := ParamsWrap.wrap s.text
  count := (calls s.text).length
  changed := ParamsWrap.wrap s.text ≠ s.text

def Wrapped.summary (w : Wrapped) : Summary :=
  ⟨w.path, w.count, w.changed⟩

def Wrapped.content (w : Wrapped) : Bytes :=
  w.text.encode

/-- Files that can be read and written whole. -/
class FileAccess (m : Type → Type) where
  read : Path → ExceptT Fault m Bytes
  write : Path → Bytes → ExceptT Fault m Unit

instance : FileAccess (StateM FileTree) where
  read p := ExceptT.mk fun tree => (tree.read p, tree)
  write p content := ExceptT.mk fun tree => tree.write p content

section Edit

variable {m : Type → Type} [Monad m] [FileAccess m]

def readText (p : Path) : ExceptT Fault m Text := do
  match Text.decode? (← FileAccess.read p) with
  | some t => return t
  | none => throw .notUtf8

def Snapshot.load (p : Path) : ExceptT EditError m Snapshot := do
  let t ← (readText p).adapt (EditError.ofRead p)
  return ⟨p, t⟩

/-- Every fault of a write is an input or output error, a missing directory too. -/
def Wrapped.save (w : Wrapped) : ExceptT EditError m Summary := do
  (FileAccess.write w.path w.content).adapt (EditError.io w.path)
  return w.summary

/-- Loads the file, wraps its calls and saves it. -/
def wrapFile (p : Path) : ExceptT EditError m Summary := do
  let s ← Snapshot.load p
  s.wrap.save

end Edit

namespace FileTree

section Run

variable {ε ε' α β : Type} (tree : FileTree)

/-- Runs what reads and writes files on those of the tree. -/
def run (action : ExceptT ε (StateM FileTree) α) : Except ε α × FileTree :=
  ExceptT.run action tree

theorem run_pure (a : α) : tree.run (pure a : ExceptT ε (StateM FileTree) α) = (.ok a, tree) := rfl

theorem run_read (p : Path) : tree.run (FileAccess.read p) = (tree.read p, tree) := rfl

theorem run_write (p : Path) (content : Bytes) : tree.run (FileAccess.write p content) = tree.write p content := rfl

theorem run_bind (action : ExceptT ε (StateM FileTree) α) (next : α → ExceptT ε (StateM FileTree) β) :
    tree.run (action >>= next) = match tree.run action with
      | (.error e, tree) => (.error e, tree)
      | (.ok a, tree) => tree.run (next a) := by
  show (match ExceptT.run action tree with | (a, tree) => ExceptT.bindCont next a tree) = _
  unfold run
  cases ExceptT.run action tree with
  | mk result tree => cases result <;> rfl

theorem run_adapt (f : ε → ε') (action : ExceptT ε (StateM FileTree) α) :
    tree.run (action.adapt f) = ((tree.run action).1.mapError f, (tree.run action).2) := rfl

end Run

def load (tree : FileTree) (p : Path) : Except EditError Snapshot × FileTree :=
  tree.run (Snapshot.load p)

def save (tree : FileTree) (w : Wrapped) : Except EditError Summary × FileTree :=
  tree.run w.save

def wrapFile (tree : FileTree) (p : Path) : Except EditError Summary × FileTree :=
  tree.run (ParamsWrap.wrapFile p)

theorem load_eq (tree : FileTree) (p : Path) :
    tree.load p = (match tree.read p with
      | .error f => .error (.ofRead p f)
      | .ok content => match Text.decode? content with
        | some t => .ok ⟨p, t⟩
        | none => .error (.ofRead p .notUtf8), tree) := by
  simp only [load, Snapshot.load, readText, run_bind, run_adapt, run_read]
  cases tree.read p with
  | error f => rfl
  | ok content =>
    dsimp only
    cases Text.decode? content <;> rfl

theorem save_eq (tree : FileTree) (w : Wrapped) :
    tree.save w = match tree.write w.path w.content with
      | (.error f, tree) => (.error (.io w.path f), tree)
      | (.ok (), tree) => (.ok w.summary, tree) := by
  simp only [save, Wrapped.save, run_bind, run_adapt, run_write, run_pure]
  cases tree.write w.path w.content with
  | mk result tree => cases result <;> rfl

theorem wrapFile_eq (tree : FileTree) (p : Path) :
    tree.wrapFile p = match tree.load p with
      | (.error e, tree) => (.error e, tree)
      | (.ok s, tree) => tree.save s.wrap := by
  rw [wrapFile, ParamsWrap.wrapFile, run_bind, load]
  cases tree.run (Snapshot.load p) with
  | mk result tree => cases result <;> rfl

end FileTree

end ParamsWrap
