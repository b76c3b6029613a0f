import ParamsWrap.Call.Located
import ParamsWrap.Proofs.ByteRange
import Mathlib.Data.List.Infix
import Mathlib.Data.List.TakeWhile

/-!
# The parts of a call

What a site holds behind its comma is a gap of blanks and the arguments. The arguments begin with the
first character that is not blank, and are the last blank where all are blank, so that they are never
empty. Of a call are told its span in bytes, its query, its arguments and its text.
-/

namespace ParamsWrap

namespace Site

/-- The blanks between the comma and the arguments. -/
def gap (s : Site) : Text :=
  match s.inner.text.dropWhile isBlank with
  | [] => s.inner.text.dropLast
  | _ => s.inner.text.takeWhile isBlank

/-- Either all is blank and the last blank is the argument, or the arguments begin with a character
that is not blank. -/
lemma gap_args_cases (s : Site) :
    (∃ c, isBlank c ∧ s.gap.all isBlank ∧ s.args = [c] ∧ s.inner.text = s.gap ++ [c]) ∨
      (∃ c rest, isBlank c = false ∧ s.gap.all isBlank ∧ s.args = c :: rest ∧
        s.inner.text = s.gap ++ c :: rest) := by
  cases hdrop : s.inner.text.dropWhile isBlank with
  | nil =>
    left
    have hblank : s.inner.text.all isBlank := by
      exact List.all_eq_true.mpr (List.dropWhile_eq_nil_iff.mp hdrop)
    have hconcat := List.dropLast_append_getLast s.inner.text_ne_nil
    have hgap : s.gap = s.inner.text.dropLast := by simp [gap, hdrop]
    have hargs : s.args = [s.inner.text.getLast s.inner.text_ne_nil] := by
      simp [args, hdrop, List.getLast?_eq_getLast_of_ne_nil s.inner.text_ne_nil]
    refine ⟨s.inner.text.getLast s.inner.text_ne_nil, ?_, ?_, hargs, by rw [hgap, hconcat]⟩
    · exact List.all_eq_true.mp hblank _ (List.getLast_mem _)
    · rw [hgap, List.all_eq_true]
      intro c hc
      exact List.all_eq_true.mp hblank c (List.mem_of_mem_dropLast hc)
  | cons c rest =>
    right
    have hgap : s.gap = s.inner.text.takeWhile isBlank := by simp [gap, hdrop]
    have hfirst := List.head?_dropWhile_not isBlank s.inner.text
    refine ⟨c, rest, ?_, ?_, ?_, ?_⟩
    · simpa [hdrop] using hfirst
    · rw [hgap]
      exact List.all_takeWhile
    · simp [args, hdrop]
    · rw [hgap, ← hdrop, List.takeWhile_append_dropWhile]

lemma gap_append_args (s : Site) : s.gap ++ s.args = s.inner.text := by
  obtain ⟨c, _, _, hargs, hinner⟩ | ⟨c, rest, _, _, hargs, hinner⟩ := s.gap_args_cases
  · rw [hargs, hinner]
  · rw [hargs, hinner]

lemma all_gap (s : Site) : s.gap.all isBlank := by
  obtain ⟨_, _, hgap, _⟩ | ⟨_, _, _, hgap, _⟩ := s.gap_args_cases
  · exact hgap
  · exact hgap

lemma args_ne_nil (s : Site) : s.args ≠ [] := by
  obtain ⟨c, _, _, hargs, _⟩ | ⟨c, rest, _, _, hargs, _⟩ := s.gap_args_cases
  · simp [hargs]
  · simp [hargs]

lemma not_mem_args (s : Site) : ')' ∉ s.args := by
  intro h
  apply s.inner.stop_not_mem
  rw [← s.gap_append_args]
  exact List.mem_append_right _ h

lemma text_eq (s : Site) : s.text = opening ++ (s.lead.text ++ (['"'] ++ (s.query.text ++
    (['"', ','] ++ (s.inner.text ++ [')']))))) := by
  simp [text]

lemma text_append_inj {s s' : Site} {rest rest' : Text} (h : s.text ++ rest = s'.text ++ rest') :
    s = s' ∧ rest = rest' := by
  have hread := read?_text_append s rest
  rw [h, read?_text_append, Option.some.injEq, Prod.mk.injEq] at hread
  exact ⟨hread.1.symm, hread.2.symm⟩

lemma text_ne_nil (s : Site) : s.text ≠ [] := by
  have hcons : s.text = 't' :: s.text.tail := rfl
  rw [hcons]
  exact List.cons_ne_nil _ _

end Site

lemma Call.start_lt_stop (c : Call) : c.start < c.stop := by
  have hpos := Text.size_pos c.site.text_ne_nil
  rw [Call.stop, Call.text]
  omega

/-- What is told of a call: its span in bytes, its query, its arguments and its text. -/
structure Finding where
  start : Nat
  stop : Nat
  query : Text
  args : Text
  text : Text
deriving DecidableEq

def Call.finding (c : Call) : Finding := ⟨c.start, c.stop, c.query, c.args, c.text⟩

end ParamsWrap
