import ParamsWrap.Text.Utf8
import Mathlib.Tactic.Lemma

/-!
# Ranges of bytes in a text

A text can be split at a byte where a character begins or the text ends. A range of bytes between two such
places can be sliced out of the text or replaced by other text.
-/

namespace ParamsWrap

namespace Text

/-- The text up to a byte and the text from there on, where a character begins or the text ends. -/
def splitAt? : Text → Nat → Option (Text × Text)
  | t, 0 => some ([], t)
  | [], _ + 1 => none
  | c :: t, n + 1 =>
    if c.utf8Size ≤ n + 1 then (splitAt? t (n + 1 - c.utf8Size)).map (Prod.map (c :: ·) id) else none

def IsBoundary (t : Text) (n : Nat) : Prop := (splitAt? t n).isSome

/-- The text between two bytes. -/
def slice? (t : Text) (start stop : Nat) : Option Text := do
  let (front, _) ← splitAt? t stop
  let (_, inside) ← splitAt? front start
  return inside

/-- The text with other text between two bytes. -/
def replaceRange? (t : Text) (start stop : Nat) (new : Text) : Option Text := do
  let (front, after) ← splitAt? t stop
  let (before, _) ← splitAt? front start
  return before ++ (new ++ after)

lemma splitAt?_size_append (s t : Text) : splitAt? (s ++ t) (size s) = some (s, t) := by
  induction s with
  | nil => rw [List.nil_append, size_nil, splitAt?]
  | cons c s ih =>
    have hpos := c.utf8Size_pos
    obtain ⟨n, hn⟩ : ∃ n, c.utf8Size + size s = n + 1 := ⟨c.utf8Size + size s - 1, by omega⟩
    have hrest : n + 1 - c.utf8Size = size s := by omega
    rw [List.cons_append, size_cons, hn, splitAt?, if_pos (by omega), hrest, ih]
    rfl

lemma isBoundary_append (s t : Text) : IsBoundary (s ++ t) s.size := by
  rw [IsBoundary, splitAt?_size_append]
  rfl

lemma slice?_append (a b c : Text) : slice? (a ++ (b ++ c)) a.size (a.size + b.size) = some b := by
  have hstop := splitAt?_size_append (a ++ b) c
  rw [List.append_assoc, size_append] at hstop
  simp [slice?, hstop, splitAt?_size_append]

lemma replaceRange?_append (a b c new : Text) :
    replaceRange? (a ++ (b ++ c)) a.size (a.size + b.size) new = some (a ++ (new ++ c)) := by
  have hstop := splitAt?_size_append (a ++ b) c
  rw [List.append_assoc, size_append] at hstop
  simp [replaceRange?, hstop, splitAt?_size_append]

lemma encode_append (s t : Text) : encode (s ++ t) = encode s ++ encode t := List.flatMap_append

lemma take_encode_append (s t : Text) : (encode (s ++ t)).take s.size = encode s := by
  rw [encode_append, ← length_encode, List.take_left]

lemma drop_encode_append (s t : Text) : (encode (s ++ t)).drop s.size = encode t := by
  rw [encode_append, ← length_encode, List.drop_left]

lemma encode_injective : Function.Injective encode := by
  intro s t h
  have hdecode := congrArg decode? h
  rwa [decode?_encode, decode?_encode, Option.some.injEq] at hdecode

lemma eq_append_of_splitAt? {t front after : Text} {n : Nat} (h : splitAt? t n = some (front, after)) :
    t = front ++ after ∧ front.size = n := by
  induction t generalizing n front with
  | nil =>
    cases n with
    | zero =>
      obtain ⟨rfl, rfl⟩ : [] = front ∧ [] = after := by simpa [splitAt?] using h
      exact ⟨rfl, rfl⟩
    | succ n => cases h
  | cons c t ih =>
    cases n with
    | zero =>
      obtain ⟨rfl, rfl⟩ : [] = front ∧ c :: t = after := by simpa [splitAt?] using h
      exact ⟨rfl, rfl⟩
    | succ n =>
      rw [splitAt?] at h
      split at h
      · rename_i hle
        obtain ⟨⟨rest, _⟩, hsplit, hpair⟩ := Option.map_eq_some_iff.mp h
        cases hpair
        obtain ⟨ht, hsize⟩ := ih hsplit
        refine ⟨by rw [ht]; rfl, ?_⟩
        rw [size_cons, hsize]
        omega
      · cases h

/-- Slicing the text slices its UTF-8 form. -/
lemma drop_take_encode_of_slice? {t u : Text} {start stop : Nat} (h : t.slice? start stop = some u) :
    (t.encode.take stop).drop start = u.encode := by
  simp only [slice?, Option.bind_eq_bind, Option.bind_eq_some_iff, Prod.exists, Option.pure_def,
    Option.some.injEq] at h
  obtain ⟨front, after, hstop, before, _, hstart, rfl⟩ := h
  obtain ⟨rfl, rfl⟩ := eq_append_of_splitAt? hstop
  obtain ⟨rfl, rfl⟩ := eq_append_of_splitAt? hstart
  rw [take_encode_append, drop_encode_append]

lemma append_inj_of_size_eq {a b c d : Text} (h : a ++ b = c ++ d) (hsize : a.size = c.size) :
    a = c ∧ b = d := by
  have hsplit := splitAt?_size_append a b
  rw [h, hsize, splitAt?_size_append] at hsplit
  simpa [eq_comm] using hsplit

lemma size_pos {t : Text} (h : t ≠ []) : 0 < t.size := by
  cases t with
  | nil => exact absurd rfl h
  | cons c t =>
    have hpos := c.utf8Size_pos
    rw [size_cons]
    omega

lemma exists_append_of_size_le {a b c d : Text} (h : a ++ b = c ++ d) (hsize : a.size ≤ c.size) :
    ∃ e, c = a ++ e ∧ b = e ++ d := by
  rcases List.append_eq_append_iff.mp h with hfront | ⟨e, ha, hd⟩
  · exact hfront
  · cases e with
    | nil => exact ⟨[], by simpa using ha.symm, by simpa using hd.symm⟩
    | cons k e =>
      have hpos := k.utf8Size_pos
      rw [ha, size_append, size_cons] at hsize
      omega

end Text

end ParamsWrap
