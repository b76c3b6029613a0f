import ParamsWrap.CommandLine.Run
import ParamsWrap.Proofs.Arguments
import ParamsWrap.Proofs.WrapFile

/-!
# Runs of the command

A run shows a help text or complains about its command line and leaves all files alone, or it wraps the one file
that the command line names. Then it changes what wrapping the file changes, and tells the number of calls that
were found or why the file could not be read.
-/

namespace ParamsWrap

/-! ### What is shown -/

lemma Scan.strip_cons_of_shows {c : Char} (h : ground.shows c) (showing : Bool) (t : Text) :
    ground.strip showing (c :: t) = c :: ground.strip true t := by
  simp [strip, h, next_ground]

/-- Switching a style on shows nothing. -/
lemma Style.exists_strip_on (s : Style) (showing : Bool) (t : Text) :
    ∃ shown, Scan.ground.strip showing (s.on.toList ++ t) = Scan.ground.strip shown t := by
  cases s with
  | plain => exact ⟨showing, rfl⟩
  | bold | heading | red | green | yellow | alarm => exact ⟨false, by cases showing <;> rfl⟩

lemma Phrase.exists_toList_render (p : Phrase) :
    ∃ after, (p.render true).toList = p.style.on.toList ++ (p.text.toList ++ after) := by
  obtain ⟨s, text⟩ := p
  by_cases hplain : s = .plain
  · subst hplain
    exact ⟨[], (List.append_nil _).symm⟩
  · exact ⟨"\x1b[0m".toList, by simp [render, hplain]⟩

/-- A message shows something when its first phrase does, coloured or not. -/
lemma Styled.render_ne_empty {p : Phrase} {c : Char} {t : Text} (htext : p.text.toList = c :: t)
    (hc : Scan.ground.shows c) (rest : Styled) (colour : Bool) : Styled.render colour (p :: rest) ≠ "" := by
  obtain ⟨u, hu⟩ : ∃ u, (String.join ((p :: rest).map (Phrase.render true))).toList = p.style.on.toList ++ c :: u := by
    obtain ⟨after, hafter⟩ := p.exists_toList_render
    exact ⟨_, by simp [hafter, htext]; rfl⟩
  obtain ⟨shown, hstrip⟩ := p.style.exists_strip_on false (c :: u)
  rw [Scan.strip_cons_of_shows hc, ← hu] at hstrip
  rw [render]
  generalize String.join ((p :: rest).map (Phrase.render true)) = text at hu hstrip
  cases colour with
  | true =>
    rintro rfl
    simp at hu
  | false =>
    rw [Ne, ← String.toList_inj]
    simp [Text.unescaped, hstrip]

lemma Flag.render_answer_ne_empty (f : Flag) (colour : Bool) : f.answer.render colour ≠ "" := by
  cases f with
  | help =>
    exact Styled.render_ne_empty (p := .plain "Wrap tx.exec arguments in pqxx::params, in place\n\n") rfl
      (by decide) _ colour
  | version =>
    exact Styled.render_ne_empty (p := .plain (programName ++ " " ++ programVersion ++ "\n")) rfl (by decide) _ colour

lemma Misuse.render_message_ne_empty (m : Misuse) (colour : Bool) : m.message.render colour ≠ "" :=
  Styled.render_ne_empty (p := .alarm "error:") rfl (by decide) _ colour

/-! ### The line that tells of a wrapped file -/

lemma newline_not_mem_toDigits (n : Nat) : '\n' ∉ Nat.toDigits 10 n := by
  intro hmem
  have hdigit := Nat.isDigit_of_mem_toDigits (by decide) (by decide) hmem
  exact absurd hdigit (by decide)

/-- The line that tells of a wrapped file and its calls. -/
def Palette.report (palette : Palette) (p : Path) (n : Nat) : String :=
  (Phrase.green "✓").render palette.marks ++ " Fixed " ++ p.display ++ " (" ++ toString n ++ " calls)\n"

/-- Nothing but the name of the file can break the line. -/
lemma Palette.count_newline_report (palette : Palette) (p : Path) (n : Nat) :
    (palette.report p n).toList.count '\n' = p.display.toList.count '\n' + 1 := by
  have hmark (colour : Bool) : ((Phrase.green "✓").render colour).toList.count '\n' = 0 := by
    cases colour <;> decide +kernel
  have hcount := List.count_eq_zero_of_not_mem (newline_not_mem_toDigits n)
  simp [report, List.count_append, hmark, hcount]

/-! ### What a run does -/

/-- What a run may leave behind, for each request: it informs, it rejects the command line, it wraps the file, or it
fails to and leaves the tree as it was. -/
inductive RunsTo (palette : Palette) (tree : FileTree) : Request → Outcome → FileTree → Prop
  | informs {f : Flag} {shown : String} (hshown : shown ≠ "") : RunsTo palette tree (.inform f) ⟨0, shown, ""⟩ tree
  | rejects {m : Misuse} {shown : String} (hshown : shown ≠ "") :
      RunsTo palette tree (.misuse m) ⟨2, "", shown⟩ tree
  | wraps {p : Path} {t : Text} {r : Summary} {after : FileTree} (hreads : tree.Reads p t)
      (hwrap : tree.wrapFile p = (.ok r, after)) :
      RunsTo palette tree (.wrap p) ⟨0, palette.report p (calls t).length, ""⟩ after
  | fails {p : Path} {e : EditError} (hwrap : tree.wrapFile p = (.error e, tree)) : RunsTo palette tree (.wrap p)
      ⟨1, "", (Phrase.red "✗").render palette.marks ++ " " ++ e.message ++ "\n"⟩ tree

theorem runsTo_run (palette : Palette) (args : List Bytes) (tree : FileTree) :
    RunsTo palette tree (Request.read args) (run palette args tree).1 (run palette args tree).2 := by
  rw [run_eq]
  cases Request.read args with
  | inform f => exact .informs (f.render_answer_ne_empty _)
  | misuse m => exact .rejects (m.render_message_ne_empty _)
  | wrap p =>
    cases hwrap : tree.wrapFile p with
    | mk result after =>
      cases result with
      | error e =>
        -- The run leaves what wrapping the file leaves, and this is the tree as it was.
        obtain rfl := FileTree.eq_of_wrapFile_eq_error hwrap
        simp only [hwrap]
        exact .fails hwrap
      | ok r =>
        obtain ⟨l, t, hnames, hholds, rfl, _⟩ := FileTree.wrapFile_eq_ok hwrap
        simp only [hwrap]
        exact .wraps ⟨l, hnames, hholds⟩ hwrap

namespace RunsTo

variable {palette : Palette} {tree after : FileTree} {request : Request} {outcome : Outcome}

lemma eq_of_code_ne_zero (h : RunsTo palette tree request outcome after) (hcode : outcome.code ≠ 0) :
    after = tree := by
  cases h with
  | informs hshown => rfl
  | rejects hshown => rfl
  | wraps hreads hwrap => exact absurd rfl hcode
  | fails hwrap => rfl

lemma code_eq_zero_iff (h : RunsTo palette tree request outcome after) :
    (outcome.code = 0 ∧ ∀ f, request ≠ .inform f) ↔
      ∃ p r, request = .wrap p ∧ tree.wrapFile p = (.ok r, after) := by
  cases h with
  | informs hshown => simp
  | rejects hshown => simp
  | wraps hreads hwrap => simp [hwrap]
  | fails hwrap => simp [hwrap]

/-- Nothing is touched but the file that is named. -/
lemma names_of_entryAt?_ne (h : RunsTo palette tree request outcome after) {l : Location}
    (hne : after.entryAt? l ≠ tree.entryAt? l) : ∃ p, request = .wrap p ∧ tree.Names p l := by
  cases h with
  | informs hshown => exact absurd rfl hne
  | rejects hshown => exact absurd rfl hne
  | wraps hreads hwrap =>
    obtain ⟨m, t, hnames, hholds, _, hreplaces⟩ := FileTree.wrapFile_eq_ok hwrap
    have hlm : l = m := by
      by_contra hlm
      exact hne (hreplaces.entryAt?_of_ne l hlm)
    exact ⟨_, rfl, hlm ▸ hnames⟩
  | fails hwrap => exact absurd rfl hne

end RunsTo

/-- A run informs, rejects its command line, or wraps the one file that this names as wrapping it alone does, and
succeeds exactly when that does. It answers with one line, and touches nothing but the file that is named, and this
only when it succeeds. -/
theorem run_refines_wrapFile (palette : Palette) (args : List Bytes) (tree : FileTree) :
    let outcome := (run palette args tree).1
    let after := (run palette args tree).2
    RunsTo palette tree (Request.read args) outcome after ∧
    (∀ p, Request.read args = .wrap p → p.bytes ≠ [] ∧
      (args = [p.bytes] ∨ args = [p.bytes, Argument.dashes] ∨ args = [Argument.dashes, p.bytes])) ∧
    (∀ p n, (palette.report p n).toList.count '\n' = p.display.toList.count '\n' + 1) ∧
    ((outcome.code = 0 ∧ ∀ f, Request.read args ≠ .inform f) ↔
      ∃ p r, Request.read args = .wrap p ∧ tree.wrapFile p = (.ok r, after)) ∧
    (outcome.code ≠ 0 → after = tree) ∧
    (∀ l, after.entryAt? l ≠ tree.entryAt? l → ∃ p, Request.read args = .wrap p ∧ tree.Names p l) := by
  intro outcome after
  have hruns : RunsTo palette tree (Request.read args) outcome after := runsTo_run palette args tree
  refine ⟨hruns, ?_, palette.count_newline_report, hruns.code_eq_zero_iff, hruns.eq_of_code_ne_zero, ?_⟩
  · intro p hp
    obtain ⟨hne, hargs⟩ := Request.read_eq_wrap_iff.mp hp
    refine ⟨hne, ?_⟩
    tauto
  · intro l hne
    exact hruns.names_of_entryAt?_ne hne

end ParamsWrap
