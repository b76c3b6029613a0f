import ParamsWrap.Call.Piece
import ParamsWrap.Proofs.Attempt

/-!
# Cuts of a text

Pieces are a cut when no site can be read at any of their characters. Every text has one cut, so that
the pieces of a text are known as soon as a cut that prints to it is. A cut stays one when its sites are
replaced by sites with the same queries, and also when characters that begin no site are put behind them:
an attempt that starts between two sites is decided by the query of the next.
-/

namespace ParamsWrap

/-- Induction along the cutting of a text: a character at which no site can be read, or a site. -/
theorem cut_induction {motive : Text → Prop} (nil : motive [])
    (char : ∀ c rest, Site.read? (c :: rest) = none → motive rest → motive (c :: rest))
    (site : ∀ (s : Site) rest, motive rest → motive (s.text ++ rest)) (t : Text) : motive t := by
  induction hn : t.length using Nat.strongRecOn generalizing t with
  | ind n ih =>
    cases t with
    | nil => exact nil
    | cons c rest =>
      cases hread : Site.read? (c :: rest) with
      | none => exact char c rest hread (ih rest.length (by simp [← hn]) rest rfl)
      | some found =>
        obtain ⟨s, after⟩ := found
        have hlt := Site.length_lt_of_read? hread
        rw [Site.eq_text_append_of_read? hread]
        exact site s after (ih after.length (by omega) after rfl)

/-- No site can be read at a character of the pieces. -/
def IsCut : List Piece → Prop
  | [] => True
  | .char c :: rest => Site.read? (c :: rest.flatMap Piece.text) = none ∧ IsCut rest
  | .site _ :: rest => IsCut rest

lemma isCut_pieces (t : Text) : IsCut (pieces t) := by
  induction t using cut_induction with
  | nil => simp [IsCut]
  | char c rest hread ih =>
    rw [pieces_cons_of_read?_eq_none hread]
    exact ⟨by rwa [flatMap_text_pieces], ih⟩
  | site s rest ih =>
    rw [pieces_of_read? (Site.read?_text_append s rest)]
    exact ih

lemma IsCut.pieces_text {ps : List Piece} (h : IsCut ps) : pieces (ps.flatMap Piece.text) = ps := by
  induction ps with
  | nil => exact pieces_nil
  | cons p ps ih =>
    cases p with
    | char c =>
      have hread : Site.read? (c :: ps.flatMap Piece.text) = none := h.1
      rw [List.flatMap_cons, Piece.text, List.singleton_append, pieces_cons_of_read?_eq_none hread, ih h.2]
    | site s =>
      rw [List.flatMap_cons, Piece.text, pieces_of_read? (Site.read?_text_append s _), ih h]

/-- The pieces of a text are its one cut. -/
theorem pieces_eq_iff {t : Text} {ps : List Piece} :
    pieces t = ps ↔ IsCut ps ∧ ps.flatMap Piece.text = t := by
  constructor
  · rintro rfl
    exact ⟨isCut_pieces t, flatMap_text_pieces t⟩
  · rintro ⟨hcut, rfl⟩
    exact hcut.pieces_text

lemma read?_cons_eq_none {c : Char} (h : c ≠ 't') (t : Text) : Site.read? (c :: t) = none := by
  have hfail : Attempt.start.next c = .failed := by simp [Attempt.start, Site.opening, marker, Attempt.next, h]
  rw [Attempt.read?_eq_none_iff, Attempt.run_cons, hfail, Attempt.run_failed]
  simp

/-- The second pieces come from the first by replacing sites by sites with the same queries and by putting
loose characters behind them that begin no site. -/
inductive Retouched : List Piece → List Piece → Prop
  | nil : Retouched [] []
  | char {ps qs} (c : Char) (h : Retouched ps qs) : Retouched (.char c :: ps) (.char c :: qs)
  | site {ps qs} {s s' : Site} (hquery : s'.query = s.query) {loose : Text} (hloose : 't' ∉ loose)
      (h : Retouched ps qs) : Retouched (.site s :: ps) (.site s' :: (loose.map .char ++ qs))

lemma Retouched.run_eq_done_iff {ps qs : List Piece} (h : Retouched ps qs) {a : Attempt} (ha : a.Underway) :
    a.run (ps.flatMap Piece.text) = .done ↔ a.run (qs.flatMap Piece.text) = .done := by
  induction h generalizing a with
  | nil => exact Iff.rfl
  | char c h ih => exact ih (ha.next c)
  | site hquery hloose h ih =>
    -- The attempt is decided at the site, so what comes behind does not matter.
    rw [List.flatMap_cons, List.flatMap_cons, Piece.text, Piece.text, Attempt.run_text ha, Attempt.run_text ha,
      hquery]

lemma isCut_loose_append {loose : Text} (hloose : 't' ∉ loose) {ps : List Piece} (h : IsCut ps) :
    IsCut (loose.map .char ++ ps) := by
  induction loose with
  | nil => exact h
  | cons c loose ih =>
    rw [List.mem_cons, not_or] at hloose
    exact ⟨read?_cons_eq_none (Ne.symm hloose.1) _, ih hloose.2⟩

theorem Retouched.isCut {ps qs : List Piece} (h : Retouched ps qs) (hps : IsCut ps) : IsCut qs := by
  induction h with
  | nil => exact hps
  | char c h ih =>
    have hread := hps.1
    rw [Attempt.read?_eq_none_iff, Attempt.run_cons] at hread
    refine ⟨?_, ih hps.2⟩
    rw [Attempt.read?_eq_none_iff, Attempt.run_cons]
    rwa [Ne, ← h.run_eq_done_iff (Attempt.underway_next_start c)]
  | site hquery hloose h ih => exact isCut_loose_append hloose (ih hps)

/-- Replaces a site, and puts loose characters behind it. -/
def Piece.retouch (f : Site → Site) (loose : Text) : Piece → List Piece
  | .char c => [.char c]
  | .site s => .site (f s) :: loose.map .char

lemma retouched_flatMap {f : Site → Site} (hquery : ∀ s, (f s).query = s.query) {loose : Text}
    (hloose : 't' ∉ loose) (ps : List Piece) : Retouched ps (ps.flatMap (Piece.retouch f loose)) := by
  induction ps with
  | nil => exact .nil
  | cons p ps ih =>
    cases p with
    | char c => exact .char c ih
    | site s => exact .site (hquery s) hloose ih

/-- The pieces of a text whose sites are replaced are the replaced pieces. -/
theorem pieces_retouch {f : Site → Site} (hquery : ∀ s, (f s).query = s.query) {loose : Text}
    (hloose : 't' ∉ loose) (t : Text) :
    pieces (((pieces t).flatMap (Piece.retouch f loose)).flatMap Piece.text) =
      (pieces t).flatMap (Piece.retouch f loose) :=
  ((retouched_flatMap hquery hloose (pieces t)).isCut (isCut_pieces t)).pieces_text

end ParamsWrap
