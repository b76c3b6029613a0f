/-!
# Texts and their blanks

A text is a list of characters, of any kind and in any order: line ends and zero characters are
ordinary members. The blanks are the characters with the White_Space property.
-/

namespace ParamsWrap

/-- A text, character by character. -/
abbrev Text := List Char

/-- What stands behind `p`, in a text that begins with it. -/
def Text.behind? : (p t : Text) → Option Text
  | [], t => some t
  | _ :: _, [] => none
  | c :: p, d :: t => if c = d then behind? p t else none

theorem Text.behind?_eq_some_iff {p t rest : Text} : behind? p t = some rest ↔ t = p ++ rest := by
  induction p generalizing t with
  | nil => simp [behind?]
  | cons c p ih =>
    cases t with
    | nil => simp [behind?]
    | cons d t =>
      by_cases h : c = d
      · simp [behind?, h, ih]
      · simp [behind?, h, Ne.symm h]

/-- First and last code points of the runs of White_Space characters. -/
def blankRuns : List (Nat × Nat) :=
  [(0x09, 0x0D), (0x20, 0x20), (0x85, 0x85), (0xA0, 0xA0), (0x1680, 0x1680), (0x2000, 0x200A),
    (0x2028, 0x2029), (0x202F, 0x202F), (0x205F, 0x205F), (0x3000, 0x3000)]

/-- The character lies in one of the White_Space runs. -/
def isBlank (c : Char) : Bool :=
  blankRuns.any fun run => run.1 ≤ c.toNat && c.toNat ≤ run.2

theorem not_mem_of_all_isBlank {t : Text} (h : t.all isBlank) {c : Char} (hc : isBlank c = false) : c ∉ t := by
  intro hmem
  have hblank := List.all_eq_true.mp h c hmem
  rw [hc] at hblank
  cases hblank

/-- A text of blanks only. -/
structure Blanks where
  text : Text
  all_blank : text.all isBlank
deriving DecidableEq

/-- The blanks that a text begins with. -/
def Blanks.leading (t : Text) : Blanks :=
  ⟨t.takeWhile isBlank, List.all_takeWhile⟩

/-- Blanks before a character that is none are all found. -/
theorem Blanks.leading_append (b : Blanks) {c : Char} (h : isBlank c = false) (rest : Text) :
    Blanks.leading (b.text ++ c :: rest) = b := by
  have htake : (b.text ++ c :: rest).takeWhile isBlank = b.text := by
    rw [List.takeWhile_append_of_pos (List.all_eq_true.mp b.all_blank)]
    simp [h]
  cases b
  simpa [Blanks.leading] using htake

theorem Blanks.dropWhile_append (b : Blanks) {c : Char} (h : isBlank c = false) (rest : Text) :
    (b.text ++ c :: rest).dropWhile isBlank = c :: rest := by
  rw [List.dropWhile_append_of_pos (List.all_eq_true.mp b.all_blank)]
  simp [h]

end ParamsWrap
