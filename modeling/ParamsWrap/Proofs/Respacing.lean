import ParamsWrap.Proofs.Recognition
import ParamsWrap.Proofs.Rewrapping
import Mathlib.Data.List.Forall2
import Mathlib.Data.Set.Function

/-!
# What wrapping forgets

Wrapping drops two runs of blanks of each call, that before the query and that before the arguments, and
keeps all else: a wrapped text is cut into the sites that it was made of, each with its query and its
arguments and with one parenthesis behind it. So texts that are wrapped alike have the same gaps between
calls with the same queries and the same arguments.
-/

namespace ParamsWrap

namespace Site

/-- The site with other blanks before its query and before its arguments. -/
def respace (lead gap : Blanks) (s : Site) : Site where
  lead := lead
  query := s.query
  inner :=
    { text := gap.text ++ s.args
      text_ne_nil := List.append_ne_nil_of_right_ne_nil _ s.args_ne_nil
      stop_not_mem := by
        rw [List.mem_append, not_or]
        refine ⟨fun hmem => ?_, s.not_mem_args⟩
        have hblank := List.all_eq_true.mp gap.all_blank ')' hmem
        exact absurd hblank (by decide) }

/-- Blanks before the arguments do not become part of them, not even where the argument is a blank. -/
lemma args_respace (lead gap : Blanks) (s : Site) : (s.respace lead gap).args = s.args := by
  have hargs : (s.respace lead gap).HasArgs s.args := by
    obtain ⟨c, hc, _, hargs, _⟩ | ⟨c, rest, hc, _, hargs, _⟩ := s.gap_args_cases
    · exact ⟨gap.text, c, [], rfl, gap.all_blank, hargs, fun _ => rfl⟩
    · exact ⟨gap.text, c, rest, rfl, gap.all_blank, hargs, by simp [hc]⟩
  exact (hasArgs_iff.mp hargs).symm

lemma wrapped_respace (lead gap : Blanks) (s : Site) : (s.respace lead gap).wrapped = s.wrapped := by
  rw [wrapped, args_respace]
  rfl

/-- A site with the same query and the same arguments is the site with other blanks. -/
lemma eq_respace {s s' : Site} (hquery : s'.query = s.query) (hargs : s'.args = s.args) :
    s' = s.respace s'.lead ⟨s'.gap, s'.all_gap⟩ := by
  have hinner := s'.gap_append_args
  rw [hargs] at hinner
  obtain ⟨lead, query, inner⟩ := s'
  obtain ⟨t, hne, hstop⟩ := inner
  simp_all [respace]

/-- The text of the site with other texts before its query and before its arguments. -/
def spaced (s : Site) (lead gap : Text) : Text :=
  opening ++ lead ++ '"' :: s.query.text ++ '"' :: ',' :: gap ++ s.args ++ [')']

lemma text_respace (lead gap : Blanks) (s : Site) :
    (s.respace lead gap).text = s.spaced lead.text gap.text := by
  simp [text, respace, spaced]

lemma text_eq_spaced (s : Site) : s.text = s.spaced s.lead.text s.gap := by
  have hself := text_respace s.lead ⟨s.gap, s.all_gap⟩ s
  rwa [← eq_respace rfl rfl] at hself

/-- The text is that of the site with other blanks before its query and before its arguments. -/
def Respaced (s : Site) (x : Text) : Prop :=
  ∃ lead gap : Blanks, x = s.spaced lead.text gap.text

/-- A wrapped site tells its query and its arguments. -/
lemma eq_respace_of_again_eq {s s' : Site} (h : s.again = s'.again) :
    s' = s.respace s'.lead ⟨s'.gap, s'.all_gap⟩ := by
  have hquery : s.again.query = s'.again.query := by rw [h]
  have hargs : s.again.args = s'.again.args := by rw [h]
  rw [args_again, args_again] at hargs
  exact eq_respace hquery.symm (List.cons.inj (List.append_cancel_left hargs)).2.symm

end Site

/-! ### The pieces of texts that are wrapped alike -/

/-- The second piece is the first, but for the blanks of a site. -/
inductive Piece.Respaced : Piece → Piece → Prop
  | char (c : Char) : Respaced (.char c) (.char c)
  | site (s : Site) (lead gap : Blanks) : Respaced (.site s) (.site (s.respace lead gap))

section Respaced

variable {ps qs : List Piece}

lemma forall₂_respaced_of_retouch_eq
    (h : ps.flatMap (Piece.retouch Site.again (closers 1)) = qs.flatMap (Piece.retouch Site.again (closers 1))) :
    List.Forall₂ Piece.Respaced ps qs := by
  induction ps generalizing qs with
  | nil =>
    cases qs with
    | nil => exact .nil
    | cons q qs => cases q <;> simp [Piece.retouch] at h
  | cons p ps ih =>
    cases qs with
    | nil => cases p <;> simp [Piece.retouch] at h
    | cons q qs =>
      -- The first piece of either list is a character or a wrapped site, and tells which.
      cases p with
      | char c =>
        cases q with
        | char d =>
          obtain ⟨hhead, htail⟩ := List.cons.inj h
          cases hhead
          exact .cons (.char c) (ih htail)
        | site s' => simp [Piece.retouch] at h
      | site s =>
        cases q with
        | char d => simp [Piece.retouch] at h
        | site s' =>
          obtain ⟨hhead, htail⟩ := List.cons.inj h
          have hsite := Site.eq_respace_of_again_eq (Piece.site.inj hhead)
          rw [hsite]
          exact .cons (.site s _ _) (ih (List.append_cancel_left htail))

lemma flatMap_wrapped_of_respaced (h : List.Forall₂ Piece.Respaced ps qs) :
    ps.flatMap Piece.wrapped = qs.flatMap Piece.wrapped := by
  induction h with
  | nil => rfl
  | cons hpiece h ih =>
    rw [List.flatMap_cons, List.flatMap_cons, ih]
    cases hpiece with
    | char c => rfl
    | site s lead gap => rw [Piece.wrapped, Piece.wrapped, Site.wrapped_respace]

/-- Texts are wrapped alike exactly when their pieces differ in the blanks of sites at most. -/
theorem wrap_eq_wrap_iff_respaced {a b : Text} :
    wrap a = wrap b ↔ List.Forall₂ Piece.Respaced (pieces a) (pieces b) := by
  constructor
  · intro h
    apply forall₂_respaced_of_retouch_eq
    rw [← pieces_wrap, ← pieces_wrap, h]
  · exact flatMap_wrapped_of_respaced

lemma gapsOf_of_respaced (h : List.Forall₂ Piece.Respaced ps qs) : gapsOf qs = gapsOf ps := by
  induction h with
  | nil => rfl
  | cons hpiece h ih => cases hpiece <;> rw [gapsOf, gapsOf, ih]

lemma forall₂_text_of_respaced (h : List.Forall₂ Piece.Respaced ps qs) :
    List.Forall₂ Site.Respaced (sites ps) ((sites qs).map Site.text) := by
  induction h with
  | nil => exact .nil
  | cons hpiece h ih =>
    cases hpiece with
    | char c => exact ih
    | site s lead gap => exact .cons ⟨lead, gap, s.text_respace lead gap⟩ ih

lemma map_sites_of_respaced (h : List.Forall₂ Piece.Respaced ps qs) {f : Site → Text}
    (hf : ∀ lead gap s, f (Site.respace lead gap s) = f s) : (sites qs).map f = (sites ps).map f := by
  induction h with
  | nil => rfl
  | cons hpiece h ih =>
    cases hpiece with
    | char c => exact ih
    | site s lead gap => rw [sites_site, sites_site, List.map_cons, List.map_cons, hf, ih]

lemma retouched_of_respaced (h : List.Forall₂ Piece.Respaced ps qs) : Retouched ps qs := by
  induction h with
  | nil => exact .nil
  | cons hpiece h ih =>
    cases hpiece with
    | char c => exact .char c ih
    | site s lead gap =>
      have hquery : (s.respace lead gap).query = s.query := rfl
      have hloose : 't' ∉ ([] : Text) := List.not_mem_nil
      exact .site hquery hloose ih

/-- Texts for the sites, each of the site with other blanks, are the texts of other pieces. -/
lemma exists_respaced {new : List Text} (h : List.Forall₂ Site.Respaced (sites ps) new) :
    ∃ qs, List.Forall₂ Piece.Respaced ps qs ∧ qs.flatMap Piece.text = weave (gapsOf ps) new := by
  induction ps generalizing new with
  | nil =>
    cases h
    exact ⟨[], .nil, rfl⟩
  | cons p ps ih =>
    cases p with
    | char c =>
      obtain ⟨qs, hqs, htext⟩ := ih h
      have hne : gapsOf ps ≠ [] := List.ne_nil_of_length_eq_add_one (length_gapsOf ps)
      refine ⟨.char c :: qs, .cons (.char c) hqs, ?_⟩
      rw [gapsOf, weave_modifyHead c hne, ← htext]
      rfl
    | site s =>
      obtain ⟨x, new, ⟨lead, gap, rfl⟩, hnew, rfl⟩ := List.forall₂_cons_left_iff.mp h
      obtain ⟨qs, hqs, htext⟩ := ih hnew
      refine ⟨.site (s.respace lead gap) :: qs, .cons (.site s lead gap) hqs, ?_⟩
      rw [gapsOf, weave, ← htext, List.flatMap_cons, Piece.text, Site.text_respace]
      rfl

end Respaced

/-! ### The calls of texts that are wrapped alike -/

namespace Call

def spaced (c : Call) (lead gap : Text) : Text := c.site.spaced lead gap

def Respaced (c : Call) (x : Text) : Prop := c.site.Respaced x

end Call

lemma wrap_eq_wrap_iff_weave {a b : Text} :
    wrap a = wrap b ↔ ∃ new, List.Forall₂ Call.Respaced (calls a) new ∧ b = weave (gaps a) new := by
  have hcalls (new : List Text) :
      List.Forall₂ Call.Respaced (calls a) new ↔ List.Forall₂ Site.Respaced (sites (pieces a)) new := by
    rw [← map_site_calls, List.forall₂_map_left_iff]
    rfl
  rw [wrap_eq_wrap_iff_respaced]
  constructor
  · intro h
    refine ⟨(sites (pieces b)).map Site.text, (hcalls _).mpr (forall₂_text_of_respaced h), ?_⟩
    rw [gaps, ← gapsOf_of_respaced h, ← map_text_calls]
    exact (weave_text b).symm
  · rintro ⟨new, hnew, rfl⟩
    obtain ⟨qs, hqs, htext⟩ := exists_respaced ((hcalls new).mp hnew)
    have hcut := (retouched_of_respaced hqs).isCut (isCut_pieces a)
    have hpieces : pieces (weave (gaps a) new) = qs := pieces_eq_iff.mpr ⟨hcut, htext⟩
    rwa [hpieces]

lemma map_calls_of_wrap_eq {a b : Text} (h : wrap a = wrap b) (f : Site → Text)
    (hf : ∀ lead gap s, f (Site.respace lead gap s) = f s) :
    (calls b).map (fun c => f c.site) = (calls a).map fun c => f c.site := by
  rw [map_calls, map_calls, map_sites_of_respaced (wrap_eq_wrap_iff_respaced.mp h) hf]

lemma map_spaced_of_wrap_eq {a b : Text} (h : wrap a = wrap b) (lead gap : Text) :
    (calls b).map (Call.spaced · lead gap) = (calls a).map (Call.spaced · lead gap) := by
  apply map_calls_of_wrap_eq h (Site.spaced · lead gap)
  intro lead' gap' s
  rw [Site.spaced, Site.args_respace]
  rfl

/-- Texts are wrapped alike exactly when one is the other with other blanks in its calls, before the queries and
before the arguments. Their gaps, queries and arguments are the same then, so that texts whose calls are all
spaced in one way are told apart. -/
theorem wrap_eq_wrap_iff (a : Text) :
    (outside 0 a.size (calls a)).map (fun span => a.slice? span.1 span.2) = (gaps a).map some ∧
    (∀ c ∈ calls a, c.text = c.spaced c.site.lead.text c.site.gap ∧ c.site.gap.all isBlank) ∧
    (∀ b, wrap a = wrap b ↔ ∃ new, List.Forall₂ Call.Respaced (calls a) new ∧ b = weave (gaps a) new) ∧
    (∀ b, wrap a = wrap b → gaps b = gaps a ∧ (calls b).map Call.query = (calls a).map Call.query ∧
      (calls b).map Call.args = (calls a).map Call.args) ∧
    Set.InjOn wrap {t | ∀ c ∈ calls t, c.text = c.spaced [] [' ']} := by
  refine ⟨map_slice?_outside a, ?_, fun b => wrap_eq_wrap_iff_weave, ?_, ?_⟩
  · intro c _
    exact ⟨c.site.text_eq_spaced, c.site.all_gap⟩
  · intro b h
    exact ⟨gapsOf_of_respaced (wrap_eq_wrap_iff_respaced.mp h),
      map_calls_of_wrap_eq h (fun s => s.query.text) fun lead gap s => rfl,
      map_calls_of_wrap_eq h Site.args Site.args_respace⟩
  · intro t ht u hu h
    have hspaced := map_spaced_of_wrap_eq h [] [' ']
    have hgaps : gaps u = gaps t := gapsOf_of_respaced (wrap_eq_wrap_iff_respaced.mp h)
    rw [← List.map_congr_left ht, ← List.map_congr_left hu] at hspaced
    rw [← weave_text t, ← weave_text u, hgaps, hspaced]

end ParamsWrap
