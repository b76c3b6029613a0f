import ParamsWrap.Text.Utf8

/-!
# Showing bytes that need not be UTF-8

Bytes are shown as the text that they are the UTF-8 form of. Where they are none, each longest
start of a character that is then broken off is shown as one replacement character, and so is each
byte that can start no character.
-/

namespace ParamsWrap.Lossy

/-- What a first byte promises: its own share of the code point, the number of bytes that follow it,
and the range that the next of them lies in. -/
structure Promise where
  share : Nat
  more : Nat
  low : UInt8
  high : UInt8

/-- The promise of a byte that can start a character. The narrower ranges keep out overlong forms,
surrogates and what lies beyond the last code point. -/
def promise? (b : UInt8) : Option Promise :=
  if b < 0x80 then some ⟨b.toNat, 0, 0x80, 0xBF⟩
  else if b < 0xC2 then none
  else if b < 0xE0 then some ⟨b.toNat - 0xC0, 1, 0x80, 0xBF⟩
  else if b = 0xE0 then some ⟨0, 2, 0xA0, 0xBF⟩
  else if b = 0xED then some ⟨0xD, 2, 0x80, 0x9F⟩
  else if b < 0xF0 then some ⟨b.toNat - 0xE0, 2, 0x80, 0xBF⟩
  else if b = 0xF0 then some ⟨0, 3, 0x90, 0xBF⟩
  else if b < 0xF4 then some ⟨b.toNat - 0xF0, 3, 0x80, 0xBF⟩
  else if b = 0xF4 then some ⟨4, 3, 0x80, 0x8F⟩
  else none

/-- Reads the bytes that keep a promise, as far as they do: the character, unless the promise is
broken, and the bytes left. -/
def keep (value : Nat) : (more : Nat) → (low high : UInt8) → Bytes → Option Char × Bytes
  | 0, _, _, rest => (some (Char.ofNat value), rest)
  | _ + 1, _, _, [] => (none, [])
  | more + 1, low, high, b :: rest =>
    if low ≤ b ∧ b ≤ high then keep (value * 64 + (b.toNat - 0x80)) more 0x80 0xBF rest
    else (none, b :: rest)

/-- Reads one character, or what is broken off of one, from a byte and those behind it. -/
def next (b : UInt8) (rest : Bytes) : Option Char × Bytes :=
  match promise? b with
  | none => (none, rest)
  | some p => keep p.share p.more p.low p.high rest

theorem length_keep_le (value more : Nat) (low high : UInt8) (bytes : Bytes) :
    (keep value more low high bytes).2.length ≤ bytes.length := by
  induction bytes generalizing value more low high with
  | nil => cases more <;> simp [keep]
  | cons b rest ih =>
    cases more with
    | zero => simp [keep]
    | succ more =>
      simp only [keep]
      split
      · exact Nat.le_succ_of_le (ih ..)
      · exact Nat.le_refl _

theorem length_next_le (b : UInt8) (rest : Bytes) : (next b rest).2.length ≤ rest.length := by
  unfold next
  split
  · exact Nat.le_refl _
  · exact length_keep_le ..

/-- The text that stands for the bytes in messages. -/
def decode : Bytes → Text
  | [] => []
  | b :: rest => (next b rest).1.getD '\uFFFD' :: decode (next b rest).2
termination_by bytes => bytes.length
decreasing_by exact Nat.lt_succ_of_le (length_next_le b rest)

end ParamsWrap.Lossy
