import ParamsWrap.CommandLine.Message
import ParamsWrap.Edit.InPlace

/-!
# Running the command

A run answers on one of its two outputs and touches the file tree only by wrapping the one file that
it is asked for.
-/

namespace ParamsWrap

/-- What a run leaves: its exit code and the texts on its outputs. -/
structure Outcome where
  code : UInt32
  stdout : String
  stderr : String
deriving DecidableEq

namespace Outcome

def inform (palette : Palette) (f : Flag) : Outcome :=
  ⟨0, f.answer.render palette.messages, ""⟩

def misuse (palette : Palette) (m : Misuse) : Outcome :=
  ⟨2, "", m.message.render palette.messages⟩

/-- The answer to an edit, which names the file as it was given. -/
def ofEdit (palette : Palette) : Except EditError Summary → Outcome
  | .ok summary =>
    ⟨0, (Phrase.green "✓").render palette.marks ++ " Fixed " ++ summary.file.display ++ " (" ++
      toString summary.count ++ " calls)\n", ""⟩
  | .error e => ⟨1, "", (Phrase.red "✗").render palette.marks ++ " " ++ e.message ++ "\n"⟩

end Outcome

/-- What the command does to the files that it has access to, and what it answers. -/
def command {m : Type → Type} [Monad m] [FileAccess m] (palette : Palette) (args : List Bytes) : m Outcome :=
  match Request.read args with
  | .inform f => return .inform palette f
  | .misuse m => return .misuse palette m
  | .wrap p => return .ofEdit palette (← (wrapFile p).run)

/-- Runs the command on a file tree. -/
def run (palette : Palette) (args : List Bytes) (tree : FileTree) : Outcome × FileTree :=
  (command palette args : StateM FileTree Outcome).run tree

theorem run_eq (palette : Palette) (args : List Bytes) (tree : FileTree) :
    run palette args tree = match Request.read args with
      | .inform f => (.inform palette f, tree)
      | .misuse m => (.misuse palette m, tree)
      | .wrap p => (.ofEdit palette (tree.wrapFile p).1, (tree.wrapFile p).2) := by
  unfold run command
  cases Request.read args <;> rfl

end ParamsWrap
