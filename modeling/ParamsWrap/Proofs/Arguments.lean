import ParamsWrap.CommandLine.Request
import Mathlib.Tactic.Lemma
import Mathlib.Tactic.Tauto

/-!
# Which command lines ask for a file

Before `--` an argument names a file unless it begins with a dash and something follows, and behind it every
argument does. A command line asks for a file to be wrapped exactly when it names this one and no other, with or
without `--`.
-/

namespace ParamsWrap

namespace Argument

/-- The argument behind which all arguments are files. -/
def dashes : Bytes := [dash, dash]

/-- The argument names a file where no `--` stands before it. -/
def IsName (arg : Bytes) : Prop := arg = [dash] ∨ arg.head? ≠ some dash

/-- What is neither a file nor `--`: a flag, known or not. -/
def IsOption : Argument → Prop
  | file _ | separator => False
  | flag _ | flagWithValue .. | unknownLong _ | unknownShort _ => True

lemma isOption_ofShort (b : UInt8) (rest : Bytes) : (ofShort b rest).IsOption := by
  unfold ofShort
  split
  · exact trivial
  · split <;> exact trivial

lemma isOption_ofLong (word : Bytes) : (ofLong word).IsOption := by
  unfold ofLong
  dsimp only
  split <;> exact trivial

/-- An argument is a name, or `--`, or an option. -/
lemma ofBytes_cases (arg : Bytes) :
    (IsName arg ∧ ofBytes arg = file ⟨arg⟩) ∨ (arg = dashes ∧ ofBytes arg = separator) ∨
      (¬ IsName arg ∧ arg ≠ dashes ∧ (ofBytes arg).IsOption) := by
  match arg with
  | [] => exact .inl ⟨.inr (by simp), rfl⟩
  | [b] => exact .inl ⟨by simp [IsName, Classical.em], rfl⟩
  | b :: c :: rest =>
    by_cases hb : b = dash
    · subst hb
      have hname : ¬ IsName (dash :: c :: rest) := by simp [IsName]
      by_cases hc : c = dash
      · subst hc
        cases rest with
        | nil => exact .inr (.inl ⟨rfl, rfl⟩)
        | cons d rest => exact .inr (.inr ⟨hname, by simp [dashes], by simp [ofBytes, isOption_ofLong]⟩)
      · exact .inr (.inr ⟨hname, by simp [dashes, hc], by simp [ofBytes, hc, isOption_ofShort]⟩)
    · exact .inl ⟨by simp [IsName, hb], by simp [ofBytes, hb]⟩

lemma not_isName_dashes : ¬ IsName dashes := by simp [IsName, dashes]

end Argument

lemma Path.mk_eq_iff {bytes : Bytes} {p : Path} : Path.mk bytes = p ↔ bytes = p.bytes := by
  cases p
  rw [Path.mk.injEq]

namespace Request

open Argument

variable {p q : Path} {args : List Bytes}

lemma ofFile?_eq_wrap_iff {file? : Option Path} : ofFile? file? = wrap p ↔ file? = some p ∧ p.bytes ≠ [] := by
  cases file? with
  | none => simp [ofFile?]
  | some q =>
    rw [Option.some.injEq, ofFile?]
    split
    · rename_i hempty
      constructor
      · rintro ⟨⟩
      · rintro ⟨rfl, hne⟩
        exact absurd hempty hne
    · rename_i hne
      constructor
      · rintro ⟨⟩
        exact ⟨rfl, hne⟩
      · rintro ⟨rfl, _⟩
        rfl

lemma ofFiles_some_eq_wrap_iff : ofFiles (some q) args = wrap p ↔ (q = p ∧ p.bytes ≠ []) ∧ args = [] := by
  cases args with
  | nil => simp [ofFiles, ofFile?_eq_wrap_iff]
  | cons arg rest => simp [ofFiles]

lemma ofFiles_none_eq_wrap_iff : ofFiles none args = wrap p ↔ p.bytes ≠ [] ∧ args = [p.bytes] := by
  cases args with
  | nil => simp [ofFiles, ofFile?_eq_wrap_iff]
  | cons arg rest =>
    rw [ofFiles, ofFiles_some_eq_wrap_iff, Path.mk_eq_iff, List.cons.injEq]
    tauto

/-- With an option on the command line no file is wrapped. -/
lemma ofArguments_ne_wrap {arg : Bytes} (h : (ofBytes arg).IsOption) (file? : Option Path) :
    ofArguments file? (arg :: args) ≠ wrap p := by
  cases harg : ofBytes arg <;> rw [harg] at h
  case file => exact h.elim
  case separator => exact h.elim
  case flag f =>
    simp only [ofArguments, harg]
    split <;> simp
  case flagWithValue f value => simp [ofArguments, harg]
  case unknownLong word =>
    simp only [ofArguments, harg]
    split <;> simp
  case unknownShort letter => simp [ofArguments, harg]

lemma ofArguments_some_eq_wrap_iff :
    ofArguments (some q) args = wrap p ↔ (q = p ∧ p.bytes ≠ []) ∧ (args = [] ∨ args = [dashes]) := by
  cases args with
  | nil => simp [ofArguments, ofFile?_eq_wrap_iff]
  | cons arg rest =>
    obtain ⟨hname, hfile⟩ | ⟨rfl, hdashes⟩ | ⟨hname, hdashes, hoption⟩ := ofBytes_cases arg
    · have hne : arg ≠ dashes := by
        rintro rfl
        exact not_isName_dashes hname
      simp [ofArguments, hfile, hne]
    · simp [ofArguments, hdashes, ofFiles_some_eq_wrap_iff]
    · simp [ofArguments_ne_wrap hoption, hdashes]

/-- A command line asks for a file to be wrapped exactly when it names this file and no other. -/
theorem read_eq_wrap_iff : read args = wrap p ↔ p.bytes ≠ [] ∧
    (IsName p.bytes ∧ (args = [p.bytes] ∨ args = [p.bytes, dashes]) ∨ args = [dashes, p.bytes]) := by
  rw [read]
  cases args with
  | nil => simp [ofArguments, ofFile?_eq_wrap_iff]
  | cons arg rest =>
    simp only [List.cons.injEq]
    obtain ⟨hname, hfile⟩ | ⟨rfl, hdashes⟩ | ⟨hname, hdashes, hoption⟩ := ofBytes_cases arg
    · simp only [ofArguments, hfile, ofArguments_some_eq_wrap_iff, Path.mk_eq_iff]
      constructor
      · rintro ⟨⟨rfl, hbytes⟩, hrest⟩
        exact ⟨hbytes, .inl ⟨hname, hrest.imp (⟨rfl, ·⟩) (⟨rfl, ·⟩)⟩⟩
      · rintro ⟨hbytes, ⟨_, ⟨rfl, hrest⟩ | ⟨rfl, hrest⟩⟩ | ⟨rfl, _⟩⟩
        · exact ⟨⟨rfl, hbytes⟩, .inl hrest⟩
        · exact ⟨⟨rfl, hbytes⟩, .inr hrest⟩
        · exact absurd hname not_isName_dashes
    · have hname : IsName p.bytes → dashes ≠ p.bytes := by
        rintro hname hp
        exact not_isName_dashes (hp ▸ hname)
      simp only [ofArguments, hdashes, ofFiles_none_eq_wrap_iff]
      tauto
    · simp only [ofArguments_ne_wrap hoption, hdashes, false_iff]
      rintro ⟨_, ⟨hp, ⟨rfl, _⟩ | ⟨rfl, _⟩⟩ | ⟨h, _⟩⟩
      · exact hname hp
      · exact hname hp
      · exact h

end Request

end ParamsWrap
