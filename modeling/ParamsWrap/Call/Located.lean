import ParamsWrap.Call.Piece

/-!
# Calls at their positions

The calls of a text are its call sites, each with the byte at which it begins. Since a site tells
its whole text, two calls are equal when they begin at the same byte and read the same.
-/

namespace ParamsWrap

/-- A call site and the position of its first byte. -/
structure Call where
  start : Nat
  site : Site
deriving DecidableEq

namespace Call

def text (c : Call) : Text := c.site.text

/-- The position just behind the last byte of the call. -/
def stop (c : Call) : Nat := c.start + c.text.size

def query (c : Call) : Text := c.site.query.text

def args (c : Call) : Text := c.site.args

def wrapped (c : Call) : Text := c.site.wrapped

end Call

/-- The calls among pieces of which the first begins at `start`. -/
def locate (start : Nat) : List Piece → List Call
  | [] => []
  | .char c :: rest => locate (start + c.utf8Size) rest
  | .site s :: rest => ⟨start, s⟩ :: locate (start + s.text.size) rest

/-- The calls of a text, from left to right. -/
def calls (t : Text) : List Call :=
  locate 0 (pieces t)

end ParamsWrap
