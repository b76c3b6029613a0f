import ParamsWrap.Proofs.Rewrapping
import Mathlib.Order.Bounds.Basic

/-!
# How deep parentheses stand

The depth of a text is the number of parentheses that it opens less the number that it closes. Wrapping opens one
parenthesis before the arguments of a call and closes one behind them, and the arguments close none. So a wrapped
text ends as deep as before and is nowhere less deep than before, even where a call is cut in the middle of nested
arguments.
-/

namespace ParamsWrap

namespace Text

/-- The parentheses that a text opens less those that it closes. -/
def depth (t : Text) : Int := t.count '(' - t.count ')'

/-- The depths behind all that the text begins with. -/
def depths (t : Text) : Set Int := {d | ∃ p, p <+: t ∧ depth p = d}

/-- The least of these depths. -/
def lowest : Text → Int
  | [] => 0
  | c :: t => min 0 (depth [c] + lowest t)

/-- All parentheses are closed in the end, and none before it was opened. -/
structure Balanced (t : Text) : Prop where
  depth_eq_zero : depth t = 0
  prefix_nonneg : ∀ p, p <+: t → 0 ≤ depth p

lemma depth_append (s t : Text) : depth (s ++ t) = depth s + depth t := by
  rw [depth, depth, depth, List.count_append, List.count_append]
  omega

lemma depth_eq_zero {t : Text} (hopen : '(' ∉ t) (hclose : ')' ∉ t) : depth t = 0 := by
  rw [depth, List.count_eq_zero_of_not_mem hopen, List.count_eq_zero_of_not_mem hclose]
  rfl

lemma depth_nonneg {t : Text} (hclose : ')' ∉ t) : 0 ≤ depth t := by
  rw [depth, List.count_eq_zero_of_not_mem hclose]
  omega

lemma lowest_nonpos (t : Text) : lowest t ≤ 0 := by
  cases t with
  | nil => exact le_refl _
  | cons c t => exact min_le_left _ _

lemma lowest_append (s t : Text) : lowest (s ++ t) = min (lowest s) (depth s + lowest t) := by
  induction s with
  | nil =>
    have hnonpos := lowest_nonpos t
    have hnil : depth [] = 0 := rfl
    rw [List.nil_append, lowest, hnil]
    omega
  | cons c s ih =>
    have hdepth : depth (c :: s) = depth [c] + depth s := depth_append [c] s
    rw [List.cons_append, lowest, lowest, ih, hdepth]
    omega

lemma lowest_eq_zero {t : Text} (hclose : ')' ∉ t) : lowest t = 0 := by
  induction t with
  | nil => rfl
  | cons c t ih =>
    rw [List.mem_cons, not_or] at hclose
    have hfirst : 0 ≤ depth [c] := depth_nonneg (by simpa using hclose.1)
    rw [lowest, ih hclose.2]
    omega

theorem isLeast_lowest (t : Text) : IsLeast t.depths t.lowest := by
  induction t with
  | nil =>
    refine ⟨⟨[], List.nil_prefix, rfl⟩, ?_⟩
    rintro d ⟨p, hp, rfl⟩
    rw [List.prefix_nil.mp hp]
    exact le_refl _
  | cons c t ih =>
    have hcons (p : Text) : depth (c :: p) = depth [c] + depth p := depth_append [c] p
    obtain ⟨⟨p, hp, hlow⟩, hleast⟩ := ih
    constructor
    · rcases le_total 0 (depth [c] + lowest t) with hmin | hmin
      · exact ⟨[], List.nil_prefix, (min_eq_left hmin).symm⟩
      · refine ⟨c :: p, (List.prefix_cons_inj c).mpr hp, ?_⟩
        rw [hcons, hlow, lowest, min_eq_right hmin]
    · rintro d ⟨q, hq, rfl⟩
      rcases List.prefix_cons_iff.mp hq with rfl | ⟨r, rfl, hr⟩
      · exact lowest_nonpos (c :: t)
      · have hle : lowest t ≤ depth r := hleast ⟨r, hr, rfl⟩
        rw [lowest, hcons r]
        omega

lemma lowest_le_depth (t : Text) : lowest t ≤ depth t :=
  (isLeast_lowest t).2 ⟨t, List.prefix_rfl, rfl⟩

lemma balanced_iff {t : Text} : t.Balanced ↔ depth t = 0 ∧ 0 ≤ lowest t := by
  have hleast := isLeast_lowest t
  constructor
  · rintro ⟨hdepth, hprefix⟩
    obtain ⟨p, hp, hlow⟩ := hleast.1
    exact ⟨hdepth, hlow ▸ hprefix p hp⟩
  · rintro ⟨hdepth, hlow⟩
    exact ⟨hdepth, fun p hp => le_trans hlow (hleast.2 ⟨p, hp, rfl⟩)⟩

/-- The texts end at the same depth and have the same least depth on the way. -/
structure Level (s t : Text) : Prop where
  depth_eq : depth s = depth t
  lowest_eq : lowest s = lowest t

lemma Level.append {s s' t t' : Text} (hs : Level s s') (ht : Level t t') : Level (s ++ t) (s' ++ t') where
  depth_eq := by rw [depth_append, depth_append, hs.depth_eq, ht.depth_eq]
  lowest_eq := by rw [lowest_append, lowest_append, hs.depth_eq, hs.lowest_eq, ht.lowest_eq]

end Text

open Text

namespace Site

/-- A site closes nothing before its end, so that its depth can only be least in its query and at the end. -/
lemma depth_lowest_text (s : Site) : depth s.text = depth s.query.text + depth s.inner.text ∧
    lowest s.text = min 0 (min (1 + lowest s.query.text) (depth s.query.text + depth s.inner.text)) := by
  have hclose : ')' ∉ s.lead.text := not_mem_of_all_isBlank s.lead.all_blank (by decide)
  have hlead : depth s.lead.text = 0 ∧ lowest s.lead.text = 0 :=
    ⟨depth_eq_zero (not_mem_of_all_isBlank s.lead.all_blank (by decide)) hclose, lowest_eq_zero hclose⟩
  have hinner : 0 ≤ depth s.inner.text ∧ lowest s.inner.text = 0 :=
    ⟨depth_nonneg s.inner.stop_not_mem, lowest_eq_zero s.inner.stop_not_mem⟩
  have hopening : depth opening = 1 ∧ lowest opening = 0 := by decide
  have hquote : depth ['"'] = 0 ∧ lowest ['"'] = 0 := by decide
  have hcomma : depth ['"', ','] = 0 ∧ lowest ['"', ','] = 0 := by decide
  have hend : depth [')'] = -1 ∧ lowest [')'] = -1 := by decide
  have hquery := lowest_le_depth s.query.text
  rw [text_eq]
  -- Behind the query the depth only rises up to the end, so that the rest is arithmetic of minima.
  simp only [depth_append, lowest_append, hlead, hinner.2, hopening, hquote, hcomma, hend]
  omega

lemma depth_inner (s : Site) : depth s.inner.text = depth s.args := by
  have hgap : depth s.gap = 0 := depth_eq_zero (not_mem_of_all_isBlank s.all_gap (by decide))
    (not_mem_of_all_isBlank s.all_gap (by decide))
  rw [← s.gap_append_args, depth_append, hgap, zero_add]

/-- The wrapper opens a parenthesis in front of the arguments, and what is put behind them closes it. -/
lemma level_wrapped (s : Site) : Level s.wrapped s.text := by
  obtain ⟨hdepth, hlowest⟩ := s.depth_lowest_text
  obtain ⟨hdepth', hlowest'⟩ := s.again.depth_lowest_text
  have hargs : 0 ≤ depth s.args := depth_nonneg s.not_mem_args
  have hquery : s.again.query = s.query := rfl
  have hinner : depth s.again.inner.text = 1 + depth s.args := by
    have htext : s.again.inner.text = (' ' :: wrapper ++ ['(']) ++ s.args := by simp [again]
    have hwrapper : depth (' ' :: wrapper ++ ['(']) = 1 := by decide
    rw [htext, depth_append, hwrapper]
  have hend : depth [')'] = -1 ∧ lowest [')'] = -1 := by decide
  rw [depth_inner] at hdepth hlowest
  rw [hquery, hinner] at hdepth' hlowest'
  constructor
  · rw [wrapped_eq, depth_append, hdepth', hdepth, hend.1]
    omega
  · rw [wrapped_eq, lowest_append, hlowest', hdepth', hlowest, hend.2]
    omega

end Site

lemma level_flatMap_wrapped (ps : List Piece) : Level (ps.flatMap Piece.wrapped) (ps.flatMap Piece.text) := by
  induction ps with
  | nil => exact ⟨rfl, rfl⟩
  | cons p ps ih =>
    rw [List.flatMap_cons, List.flatMap_cons]
    cases p with
    | char c => exact Level.append ⟨rfl, rfl⟩ ih
    | site s => exact s.level_wrapped.append ih

/-- Wrapping changes neither the depth that a text comes to nor the least depth on the way, so that parentheses are
balanced in the wrapped text exactly where they were balanced. -/
theorem depth_wrap (t : Text) :
    depth (wrap t) = depth t ∧ IsLeast t.depths t.lowest ∧ IsLeast (depths (wrap t)) t.lowest ∧
      (Balanced (wrap t) ↔ t.Balanced) := by
  have hlevel := level_flatMap_wrapped (pieces t)
  rw [flatMap_text_pieces] at hlevel
  have hdepth : depth (wrap t) = depth t := hlevel.depth_eq
  have hlowest : lowest (wrap t) = t.lowest := hlevel.lowest_eq
  refine ⟨hdepth, isLeast_lowest t, ?_, ?_⟩
  · rw [← hlowest]
    exact isLeast_lowest (wrap t)
  · rw [balanced_iff, balanced_iff, hdepth, hlowest]

-- The call ends with `f(x)`, and its last parenthesis stays behind.
example : let t := wrap "tx.exec(\"lit\", f(x), y)".toList
    String.ofList t = "tx.exec(\"lit\", pqxx::params(f(x)), y)" ∧ depth t = 0 ∧ lowest t = 0 := by
  decide +kernel

end ParamsWrap
