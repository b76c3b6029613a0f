import ParamsWrap.Call.Site
import ParamsWrap.Pattern.Basic

/-!
# The pattern of a call

The pattern tells what a call is by repetitions alone: blanks are taken wherever they may stand, and
it is left to backtracking which repetition takes them. Its labels tell all that a match can choose.
-/

namespace ParamsWrap

/-- The parts of a call: the blanks before the query, the query, the blanks before the arguments,
the arguments, and the blanks behind them. -/
inductive CallPart where
  | lead
  | query
  | gap
  | args
  | tail
deriving DecidableEq

/-- Everything but one character. -/
def allBut (stop : Char) (c : Char) : Bool := c ≠ stop

/-- `tx.exec(`, blanks, a query that is not empty between quotes, a comma, blanks, arguments that are
not empty and hold no closing parenthesis, blanks, and a closing parenthesis. -/
def callPattern : Pattern CallPart :=
  .seq (.literal Site.opening) <|
  .seq (.labelled .lead (.star (.one isBlank))) <|
  .seq (.literal ['"']) <|
  .seq (.labelled .query (.plus (.one (allBut '"')))) <|
  .seq (.literal ['"', ',']) <|
  .seq (.labelled .gap (.star (.one isBlank))) <|
  .seq (.labelled .args (.plus (.one (allBut ')')))) <|
  .seq (.labelled .tail (.star (.one isBlank))) <|
  .literal [')']

end ParamsWrap
