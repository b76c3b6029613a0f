import ParamsWrap.Text.Utf8

/-!
# Escape sequences

A text for a terminal holds sequences that are not meant to be read: an escape and what belongs to
it. A terminal follows a text character by character through the states of such a sequence. Written
to something that is no terminal, a text loses its sequences and the control characters that are not
white space.
-/

namespace ParamsWrap

/-- Where a terminal stands in a text: outside of every sequence, behind an escape, in a control
sequence, in the head of a device control string, in a string up to its terminator, or in an operating
system command. -/
inductive Scan where
  | ground
  | escape
  | escapeIntermediate
  | control
  | device
  | deviceParams
  | deviceIntermediate
  | payload
  | command
deriving DecidableEq

namespace Scan

/-- The ASCII characters that are white space, without the vertical tab. -/
def isSpacing (n : Nat) : Bool :=
  n = 0x09 || n = 0x0A || n = 0x0C || n = 0x0D || n = 0x20

/-- The state behind an ASCII character other than an escape, a cancel and a substitute. -/
def nextAscii (s : Scan) (n : Nat) : Scan :=
  match s with
  | ground => ground
  | escape =>
    if n < 0x20 ∨ n = 0x7F then escape
    else if n < 0x30 then escapeIntermediate
    else if n = 0x50 then device
    else if n = 0x5B then control
    else if n = 0x5D then command
    else if n = 0x58 ∨ n = 0x5E ∨ n = 0x5F then payload
    else ground
  | escapeIntermediate => if 0x30 ≤ n ∧ n < 0x7F then ground else escapeIntermediate
  | control => if 0x40 ≤ n ∧ n < 0x7F then ground else control
  | device =>
    if n < 0x20 ∨ n = 0x7F then device
    else if n < 0x30 then deviceIntermediate
    else if n < 0x40 then deviceParams
    else payload
  | deviceParams =>
    if n < 0x20 ∨ n = 0x7F ∨ (0x30 ≤ n ∧ n < 0x3C) then deviceParams
    else if n < 0x30 then deviceIntermediate
    else payload
  | deviceIntermediate => if 0x30 ≤ n ∧ n < 0x7F then payload else deviceIntermediate
  | payload => payload
  | command => if n = 0x07 then ground else command

/-- The state behind a character. Of the others than ASCII only those end a payload in which a byte
is the string terminator. -/
def next (s : Scan) (c : Char) : Scan :=
  let n := c.toNat
  if n = 0x1B then escape
  else if n = 0x18 ∨ n = 0x1A then ground
  else if n < 0x80 then s.nextAscii n
  else if s = payload ∧ (Text.encode [c]).contains 0x9C then ground
  else s

/-- Whether a character that is met in a state stays in the text. White space does also inside of a
sequence, up to where its payload begins. -/
def shows (s : Scan) (c : Char) : Bool :=
  let n := c.toNat
  match s with
  | ground => isSpacing n || (0x20 ≤ n && n ≠ 0x7F)
  | escape | escapeIntermediate | control => n < 0x20 && isSpacing n
  | _ => false

/-- What stays of a text from a state on. Behind a character that stays the text is read as outside
of a sequence for as long as characters stay, and then goes on from the state it was in; a character
other than ASCII ends the sequence. -/
def strip (s : Scan) (showing : Bool) : Text → Text
  | [] => []
  | c :: rest =>
    if showing && ground.shows c then c :: strip (if c.toNat < 0x80 then s else ground) true rest
    else if s.shows c then c :: strip (s.next c) true rest
    else strip (s.next c) false rest

theorem next_ground {c : Char} (h : ground.shows c) : ground.next c = ground := by
  have hn : c.toNat ≠ 0x1B := by
    intro hn
    simp [shows, isSpacing, hn] at h
  simp [next, nextAscii, hn]

theorem strip_ground {t : Text} (h : ∀ c ∈ t, ground.shows c) (showing : Bool) :
    ground.strip showing t = t := by
  induction t generalizing showing with
  | nil => rfl
  | cons c t ih =>
    have hc := h c (by simp)
    have ht := ih fun d hd => h d (by simp [hd])
    simp [strip, hc, next_ground hc, ht]

end Scan

/-- A text without its escape sequences. -/
def Text.unescaped (t : Text) : Text :=
  Scan.ground.strip false t

/-- A text of which every character is meant to be read stays as it is. -/
theorem Text.unescaped_eq_self {t : Text} (h : ∀ c ∈ t, Scan.ground.shows c) : t.unescaped = t :=
  Scan.strip_ground h false

end ParamsWrap
