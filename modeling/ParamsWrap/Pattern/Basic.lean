import ParamsWrap.Text.Utf8

/-!
# Patterns and their matches

A pattern is a tree of character classes, sequences and repetitions, with labels on the parts that a
match is to tell. At the front of a text a pattern has a list of matches, in the order in which
backtracking finds them: of a sequence the first part is tried in its order and the second within
each, and a repetition goes on as long as it can before it stops. The search for a pattern takes the
first match at each position, goes on behind it, and passes over one character where there is none.
-/

namespace ParamsWrap

/-- A pattern whose parts are labelled in `ι`. -/
inductive Pattern (ι : Type) where
  | empty
  | one (accepts : Char → Bool)
  | seq (p q : Pattern ι)
  | star (p : Pattern ι)
  | labelled (label : ι) (p : Pattern ι)

/-- A match at the front of a text: what is taken, the labelled parts of it from left to right, and
what is left. -/
structure Match (ι : Type) where
  taken : Text
  parts : List (ι × Text)
  rest : Text
deriving DecidableEq

namespace Match

variable {ι : Type}

/-- The match that takes nothing. -/
def stay (t : Text) : Match ι := ⟨[], [], t⟩

/-- The match followed by one at the front of what it leaves. -/
def andThen (m n : Match ι) : Match ι :=
  ⟨m.taken ++ n.taken, m.parts ++ n.parts, n.rest⟩

/-- The part that bears a label. -/
def part [DecidableEq ι] (m : Match ι) (label : ι) : Text :=
  (m.parts.lookup label).getD []

end Match

namespace Pattern

variable {ι : Type}

def literal : Text → Pattern ι
  | [] => empty
  | c :: rest => seq (one (· = c)) (literal rest)

def plus (p : Pattern ι) : Pattern ι := seq p (star p)

/-- All ways to repeat a step, at most `bound` times, with the longest first. A step that takes
nothing is no repetition. -/
def repetitions (step : Text → List (Match ι)) : (bound : Nat) → Text → List (Match ι)
  | 0, t => [.stay t]
  | bound + 1, t =>
    ((step t).filter (·.taken ≠ [])).flatMap
      (fun m => (repetitions step bound m.rest).map m.andThen) ++ [.stay t]

/-- The matches of a pattern at the front of a text, in the order of backtracking. -/
def matchings : Pattern ι → Text → List (Match ι)
  | empty, t => [.stay t]
  | one _, [] => []
  | one accepts, c :: rest => if accepts c then [⟨[c], [], rest⟩] else []
  | seq p q, t => (matchings p t).flatMap fun m => (matchings q m.rest).map m.andThen
  | star p, t => repetitions (matchings p) t.length t
  | labelled label p, t => (matchings p t).map fun m => { m with parts := (label, m.taken) :: m.parts }

/-- The match that backtracking finds first. -/
def first? (p : Pattern ι) (t : Text) : Option (Match ι) :=
  (p.matchings t).head?

/-- All matches in a text that begins at `start`, from left to right, with the positions of their
first bytes. A match that takes nothing is passed over. -/
def search (p : Pattern ι) (start : Nat) : Text → List (Nat × Match ι)
  | [] => []
  | c :: rest =>
    match p.first? (c :: rest) with
    | none => search p (start + c.utf8Size) rest
    | some m =>
      if m.rest.length ≤ rest.length then (start, m) :: search p (start + m.taken.size) m.rest
      else search p (start + c.utf8Size) rest
termination_by t => t.length
decreasing_by
  · exact Nat.lt_succ_self _
  · exact Nat.lt_succ_of_le ‹_›
  · exact Nat.lt_succ_self _

end Pattern

end ParamsWrap
