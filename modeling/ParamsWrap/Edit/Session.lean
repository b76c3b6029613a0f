import ParamsWrap.Edit.InPlace

/-!
# Sessions

A session takes steps of several edits, in any order, on one file tree that is also changed from
outside. Snapshots, wrapped texts and summaries are held under names. A step that fails is answered
by its error, and the next one is taken.
-/

namespace ParamsWrap

inductive Held where
  | snapshot (s : Snapshot)
  | wrapped (w : Wrapped)
  | summary (s : Summary)
deriving DecidableEq

/-- The values are of one kind and equal in all their parts, paths being equal when alike. -/
def Held.same : Held → Held → Bool
  | snapshot a, snapshot b => a.path.alike b.path && a.text = b.text
  | wrapped a, wrapped b =>
    a.path.alike b.path && a.text = b.text && a.count = b.count && a.changed = b.changed
  | summary a, summary b => a.file.alike b.file && a.count = b.count && a.changed = b.changed
  | _, _ => false

/-- A step of a session: a change of the tree from outside, a step of an edit, or a question. -/
inductive Step where
  | put (path : Path) (content : Bytes)
  | append (path : Path) (content : Bytes)
  | makeDirs (path : Path)
  | remove (path : Path)
  | look (path : Path)
  | load (path : Path) (name : String)
  | wrap (name : String)
  | save (name : String)
  | wrapFile (path : Path) (name? : Option String)
  | peek (name : String)
  | copy (name other : String)
  | compare (name other : String)
deriving DecidableEq

inductive Reply where
  | done
  | sight (s : Sight)
  | held (h : Held)
  | same (b : Bool)
  | failed (e : EditError)
  | refused (f : Fault)
  | unknownName (name : String)
  | wrongKind (name : String)
deriving DecidableEq

structure Session where
  tree : FileTree
  slots : List (String × Held)
deriving DecidableEq

namespace Session

def start (tree : FileTree) : Session := ⟨tree, []⟩

def held? (s : Session) (name : String) : Option Held :=
  s.slots.lookup name

def release (s : Session) (name : String) : Session :=
  { s with slots := s.slots.filter fun slot => slot.1 ≠ name }

def hold (s : Session) (name : String) (h : Held) : Session :=
  { s with slots := (name, h) :: (s.release name).slots }

/-- Takes over the tree that a change from outside leaves, and tells why the change stopped if it did. -/
def changed (s : Session) : Except Fault Unit × FileTree → Reply × Session
  | (.error f, tree) => (.refused f, { s with tree })
  | (.ok (), tree) => (.done, { s with tree })

/-- Saving gives the name up when it fails, and otherwise leaves the summary under it. -/
def saved (s : Session) (name : String) : Except EditError Summary × FileTree → Reply × Session
  | (.error e, tree) => (.failed e, { s with tree }.release name)
  | (.ok summary, tree) => (.held (.summary summary), { s with tree }.hold name (.summary summary))

def step (s : Session) : Step → Reply × Session
  | .put p content => s.changed (s.tree.write p content)
  | .append p content => s.changed (s.tree.append p content)
  | .makeDirs p => s.changed (s.tree.makeDirs p)
  | .remove p => s.changed (s.tree.remove p)
  | .look p => (.sight (s.tree.look p), s)
  | .load p name =>
    match s.tree.load p with
    | (.error e, tree) => (.failed e, { s with tree })
    | (.ok snapshot, tree) => (.held (.snapshot snapshot), { s with tree }.hold name (.snapshot snapshot))
  | .wrap name =>
    match s.held? name with
    | none => (.unknownName name, s)
    | some (.snapshot snapshot) =>
      (.held (.wrapped snapshot.wrap), s.hold name (.wrapped snapshot.wrap))
    | some _ => (.wrongKind name, s)
  | .save name =>
    match s.held? name with
    | none => (.unknownName name, s)
    | some (.wrapped w) => s.saved name (s.tree.save w)
    | some _ => (.wrongKind name, s)
  | .wrapFile p name? =>
    match s.tree.wrapFile p with
    | (.error e, tree) => (.failed e, { s with tree })
    | (.ok summary, tree) =>
      let s := { s with tree }
      (.held (.summary summary),
        match name? with
        | none => s
        | some name => s.hold name (.summary summary))
  | .peek name =>
    match s.held? name with
    | none => (.unknownName name, s)
    | some h => (.held h, s)
  | .copy name other =>
    match s.held? name with
    | none => (.unknownName name, s)
    | some h => (.done, s.hold other h)
  | .compare name other =>
    match s.held? name, s.held? other with
    | none, _ => (.unknownName name, s)
    | some _, none => (.unknownName other, s)
    | some a, some b => (.same (a.same b), s)

/-- Takes steps from left to right, and gives the replies in the same order. -/
def run (s : Session) : List Step → List Reply × Session
  | [] => ([], s)
  | step :: rest =>
    let (reply, s) := s.step step
    let (replies, s) := s.run rest
    (reply :: replies, s)

end Session

end ParamsWrap
