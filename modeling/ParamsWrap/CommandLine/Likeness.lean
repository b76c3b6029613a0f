import ParamsWrap.Text.Blank

/-!
# Likeness of two words

Two words are alike by the share of the characters that they have in common, each found not far from
its own position, and by how many of these stand in the same order. The likeness is a number between
0 and 1 in double precision, where rounding decides between likenesses that are equal as fractions.
-/

namespace ParamsWrap

namespace Likeness

/-- Takes the first free `c` at a position from `low` on and before `high`, where the word that is
left begins at `pos`. -/
def take? (c : Char) (low high pos : Nat) : List (Char × Bool) → Option (List (Char × Bool))
  | [] => none
  | (d, taken) :: rest =>
    if high ≤ pos then none
    else if low ≤ pos ∧ c = d ∧ taken = false then some ((d, true) :: rest)
    else (take? c low high (pos + 1) rest).map ((d, taken) :: ·)

/-- The characters of the first word that find a partner, and the second word with the partners
marked. -/
def partners (reach pos : Nat) : Text → List (Char × Bool) → Text × List (Char × Bool)
  | [], word => ([], word)
  | c :: rest, word =>
    match take? c (pos - reach) (pos + reach + 1) 0 word with
    | none => partners reach (pos + 1) rest word
    | some word =>
      let (found, word) := partners reach (pos + 1) rest word
      (c :: found, word)

/-- The mean of three shares: of either word what is common, and of what is common what stands in
order. Two characters out of order count as one. -/
def ofWords (a b : Text) : Float :=
  let reach := max a.length b.length / 2 - 1
  let (found, word) := partners reach 0 a (b.map (·, false))
  let inOrder := (word.filter (·.2)).map (·.1)
  let swaps := (List.zip found inOrder).countP (fun pair => pair.1 ≠ pair.2) / 2
  let common := found.length
  let share (part whole : Nat) : Float := part.toFloat / whole.toFloat
  if a = [] ∧ b = [] then 1
  else if common = 0 then 0
  else (share common a.length + share common b.length + share (common - swaps) common) / 3

/-- More than seven tenths. -/
def isClose (l : Float) : Bool :=
  0.7 < l

end Likeness

end ParamsWrap
