import ParamsWrap.Call.Site

/-!
# Cutting a text into pieces

A text is cut, from left to right, into call sites and the characters between them. A site is taken
wherever one can be read; where none can, one character is passed over and the search goes on behind
it. The pieces print to the text that was cut, and wrapping prints each site as its replacement.
-/

namespace ParamsWrap

/-- A part of a text: a call site, or a character outside all sites. -/
inductive Piece where
  | char (c : Char)
  | site (s : Site)
deriving DecidableEq

namespace Piece

def text : Piece → Text
  | char c => [c]
  | site s => s.text

def wrapped : Piece → Text
  | char c => [c]
  | site s => s.wrapped

def isSite : Piece → Bool
  | char _ => false
  | site _ => true

end Piece

/-- Puts the pieces of a text behind those cut before, which are kept last one first. -/
def cut (done : List Piece) (t : Text) : List Piece :=
  match _h : Site.read? t with
  | some (s, rest) => cut (.site s :: done) rest
  | none =>
    match t with
    | [] => done.reverse
    | c :: rest => cut (.char c :: done) rest
termination_by t.length
decreasing_by
  · exact Site.length_lt_of_read? _h
  · simp

/-- The pieces of a text, from left to right. -/
def pieces (t : Text) : List Piece :=
  cut [] t

theorem cut_nil (done : List Piece) : cut done [] = done.reverse := by
  rw [cut.eq_def]
  rfl

theorem cut_of_read? (done : List Piece) {t rest : Text} {s : Site}
    (h : Site.read? t = some (s, rest)) : cut done t = cut (.site s :: done) rest := by
  rw [cut.eq_def]
  split
  · rename_i h'
    cases h.symm.trans h'
    rfl
  · simp_all

theorem cut_cons_of_read?_eq_none (done : List Piece) {c : Char} {rest : Text}
    (h : Site.read? (c :: rest) = none) : cut done (c :: rest) = cut (.char c :: done) rest := by
  rw [cut.eq_def]
  split
  · simp_all
  · rfl

/-- What was cut before stays in front. -/
theorem cut_append (late early : List Piece) (t : Text) :
    cut (late ++ early) t = early.reverse ++ cut late t := by
  fun_induction cut late t with
  | case1 late t s rest h ih => rw [cut_of_read? _ h, ← ih, List.cons_append]
  | case2 late => simp [cut_nil]
  | case3 late c rest h ih => rw [cut_cons_of_read?_eq_none _ h, ← ih, List.cons_append]

@[simp]
theorem pieces_nil : pieces [] = [] :=
  cut_nil []

theorem pieces_of_read? {t rest : Text} {s : Site} (h : Site.read? t = some (s, rest)) :
    pieces t = .site s :: pieces rest := by
  rw [pieces, cut_of_read? [] h]
  exact cut_append [] [.site s] rest

theorem pieces_cons_of_read?_eq_none {c : Char} {rest : Text} (h : Site.read? (c :: rest) = none) :
    pieces (c :: rest) = .char c :: pieces rest := by
  rw [pieces, cut_cons_of_read?_eq_none [] h]
  exact cut_append [] [.char c] rest

/-- Nothing of the text is lost by cutting it. -/
theorem flatMap_text_pieces (t : Text) : (pieces t).flatMap Piece.text = t := by
  induction hn : t.length using Nat.strongRecOn generalizing t with
  | ind n ih =>
    cases t with
    | nil => simp
    | cons c rest =>
      cases h : Site.read? (c :: rest) with
      | none =>
        rw [pieces_cons_of_read?_eq_none h, List.flatMap_cons, ih rest.length (by simp [← hn]) rest rfl]
        rfl
      | some found =>
        obtain ⟨s, after⟩ := found
        have hlt := Site.length_lt_of_read? h
        rw [pieces_of_read? h, List.flatMap_cons, ih after.length (by omega) after rfl,
          Site.eq_text_append_of_read? h]
        rfl

/-- Each call site replaced by its wrapped form, all else as it stands. -/
def wrap (t : Text) : Text :=
  (pieces t).flatMap Piece.wrapped

/-- The wrapped text, where there is a call site to wrap. -/
def wrap? (t : Text) : Option Text :=
  if (pieces t).any Piece.isSite then some (wrap t) else none

end ParamsWrap
