import ParamsWrap.Proofs.Weave
import Mathlib.Data.List.Sort

/-!
# Which call sites are found

A site stands in a text wherever its text does. A listing of a text tells sites that stand in it, in order
and apart from each other, and leaves no site outside of them. Every text has one listing, that of its calls.
-/

namespace ParamsWrap

/-- The site stands in the text at a byte. -/
def Site.At (s : Site) (t : Text) (p : Nat) : Prop :=
  ∃ before after, t = before ++ (s.text ++ after) ∧ Text.size before = p

/-- The arguments are what follows the blanks behind the comma, or the last blank where nothing else follows. -/
def Site.HasArgs (s : Site) (a : Text) : Prop :=
  ∃ gap c rest, s.inner.text = gap ++ a ∧ gap.all isBlank ∧ a = c :: rest ∧ (isBlank c → rest = [])

/-- The findings are sites of the text with their queries and arguments, in order and apart, and no site of
the text begins outside of them. -/
structure Listing (t : Text) (found : List Finding) : Prop where
  sound : ∀ f ∈ found, ∃ s : Site, s.At t f.start ∧ f.stop = f.start + s.text.size ∧
    f.query = s.query.text ∧ s.HasArgs f.args ∧ f.text = s.text
  apart : found.Pairwise fun f g => f.stop ≤ g.start
  complete : ∀ (s : Site) (p : Nat), s.At t p → ∃ f ∈ found, f.start ≤ p ∧ p < f.stop

lemma Site.At.unique {s s' : Site} {t : Text} {p : Nat} (h : s.At t p) (h' : s'.At t p) : s = s' := by
  obtain ⟨before, after, rfl, rfl⟩ := h
  obtain ⟨before', after', ht, hsize⟩ := h'
  exact (Site.text_append_inj (Text.append_inj_of_size_eq ht hsize.symm).2).1

lemma Site.hasArgs_iff {s : Site} {a : Text} : s.HasArgs a ↔ a = s.args := by
  constructor
  · rintro ⟨gap, c, rest, hinner, hgap, rfl, hrest⟩
    have hgap := List.all_eq_true.mp hgap
    by_cases hc : isBlank c
    · obtain rfl := hrest hc
      have hdrop : s.inner.text.dropWhile isBlank = [] := by
        rw [hinner, List.dropWhile_append_of_pos hgap, List.dropWhile_cons_of_pos hc]
        rfl
      have hlast : s.inner.text.getLast? = some c := by simp [hinner]
      simp [args, hdrop, hlast]
    · have hdrop : s.inner.text.dropWhile isBlank = c :: rest := by
        rw [hinner, List.dropWhile_append_of_pos hgap, List.dropWhile_cons_of_neg hc]
      simp [args, hdrop]
  · rintro rfl
    obtain ⟨c, _, hgap, hargs, hinner⟩ | ⟨c, rest, hc, hgap, hargs, hinner⟩ := s.gap_args_cases
    · exact ⟨s.gap, c, [], by rw [hinner, hargs], hgap, hargs, fun _ => rfl⟩
    · exact ⟨s.gap, c, rest, by rw [hinner, hargs], hgap, hargs, by simp [hc]⟩

/-! ### Two listings are the same -/

namespace Listing

variable {t : Text} {found found' : List Finding}

lemma start_lt_stop (h : Listing t found) {f : Finding} (hf : f ∈ found) : f.start < f.stop := by
  obtain ⟨s, _, hstop, _⟩ := h.sound f hf
  have hpos := Text.size_pos s.text_ne_nil
  omega

lemma stop_le_start (h : Listing t found) {f g : Finding} (hf : f ∈ found) (hg : g ∈ found)
    (hlt : f.start < g.start) : f.stop ≤ g.start := by
  obtain ⟨i, hi, rfl⟩ := List.getElem_of_mem hf
  obtain ⟨j, hj, rfl⟩ := List.getElem_of_mem hg
  have hpairs := List.pairwise_iff_getElem.mp h.apart
  rcases Nat.lt_trichotomy i j with hij | rfl | hji
  · exact hpairs i j hi hj hij
  · exact absurd hlt (Nat.lt_irrefl _)
  · have hstop := hpairs j i hj hi hji
    have hspan := h.start_lt_stop hg
    omega

lemma pairwise_start_lt (h : Listing t found) : found.Pairwise fun f g => f.start < g.start := by
  apply h.apart.imp_of_mem
  intro f g hf _ hstop
  have hspan := h.start_lt_stop hf
  omega

lemma eq_of_start_eq (h : Listing t found) (h' : Listing t found') {f g : Finding} (hf : f ∈ found)
    (hg : g ∈ found') (hstart : f.start = g.start) : f = g := by
  obtain ⟨s, hs, hfstop, hfquery, hfargs, hftext⟩ := h.sound f hf
  obtain ⟨s', hs', hgstop, hgquery, hgargs, hgtext⟩ := h'.sound g hg
  rw [← hstart] at hs'
  obtain rfl := hs.unique hs'
  rw [Site.hasArgs_iff] at hfargs hgargs
  cases f
  cases g
  simp_all

/-- A finding of one listing is in the other when all that begin before it are: the other tells a site that
covers its first byte, and one that began before it would be in both and overlap it. -/
lemma mem_of_mem (h : Listing t found) (h' : Listing t found') {f : Finding} (hf : f ∈ found)
    (hbefore : ∀ g ∈ found', g.start < f.start → g ∈ found) : f ∈ found' := by
  obtain ⟨s, hs, _⟩ := h.sound f hf
  obtain ⟨g, hg, hle, hlt⟩ := h'.complete s f.start hs
  rcases Nat.lt_or_eq_of_le hle with hstart | hstart
  · have happart := h.stop_le_start (hbefore g hg hstart) hf hstart
    omega
  · rwa [h.eq_of_start_eq h' hf hg hstart.symm]

lemma mem_iff (h : Listing t found) (h' : Listing t found') (f : Finding) : f ∈ found ↔ f ∈ found' := by
  induction hn : f.start using Nat.strongRecOn generalizing f with
  | ind n ih =>
    subst hn
    constructor
    · intro hf
      exact h.mem_of_mem h' hf fun g hg hlt => (ih g.start hlt g rfl).mpr hg
    · intro hf
      exact h'.mem_of_mem h hf fun g hg hlt => (ih g.start hlt g rfl).mp hg

/-- A text has one listing at most. -/
theorem unique (h : Listing t found) (h' : Listing t found') : found = found' := by
  have : Std.Irrefl fun f g : Finding => f.start < g.start := ⟨fun f => Nat.lt_irrefl f.start⟩
  have : Std.Antisymm fun f g : Finding => f.start < g.start :=
    ⟨fun f g hlt hgt => absurd (Nat.lt_trans hlt hgt) (Nat.lt_irrefl f.start)⟩
  exact h.pairwise_start_lt.eq_of_mem_iff h'.pairwise_start_lt (h.mem_iff h')

end Listing

/-! ### The calls are a listing -/

/-- A site that stands among pieces begins inside one of their sites. -/
lemma exists_mem_locate (start : Nat) {ps : List Piece} (hcut : IsCut ps) {s : Site} {before after : Text}
    (ht : ps.flatMap Piece.text = before ++ (s.text ++ after)) :
    ∃ c ∈ locate start ps, c.start ≤ start + before.size ∧ start + before.size < c.stop := by
  induction ps generalizing start before with
  | nil =>
    have hnil := List.append_eq_nil_iff.mp (List.append_eq_nil_iff.mp ht.symm).2
    exact absurd hnil.1 s.text_ne_nil
  | cons p ps ih =>
    cases p with
    | char c =>
      cases before with
      | nil =>
        have hread := hcut.1
        have hsite : c :: ps.flatMap Piece.text = s.text ++ after := ht
        rw [hsite, Site.read?_text_append] at hread
        cases hread
      | cons d before =>
        obtain ⟨rfl, hrest⟩ := List.cons.inj ht
        obtain ⟨found, hmem, hle, hlt⟩ := ih (start + c.utf8Size) hcut.2 hrest
        refine ⟨found, hmem, ?_, ?_⟩
        · rw [Text.size_cons]
          omega
        · rw [Text.size_cons]
          omega
    | site s' =>
      -- The site that stands begins inside the first of the pieces or behind it.
      have hhere : s'.text ++ ps.flatMap Piece.text = before ++ (s.text ++ after) := ht
      rcases Nat.lt_or_ge before.size s'.text.size with hinside | hbehind
      · refine ⟨⟨start, s'⟩, List.mem_cons_self, Nat.le_add_right _ _, ?_⟩
        exact Nat.add_lt_add_left hinside start
      · obtain ⟨between, rfl, hrest⟩ := Text.exists_append_of_size_le hhere hbehind
        obtain ⟨found, hmem, hle, hlt⟩ := ih (start + s'.text.size) hcut hrest
        refine ⟨found, List.mem_cons_of_mem _ hmem, ?_, ?_⟩
        · rw [Text.size_append]
          omega
        · rw [Text.size_append]
          omega

theorem listing_calls (t : Text) : Listing t ((calls t).map Call.finding) where
  sound := by
    intro f hf
    obtain ⟨c, hc, rfl⟩ := List.mem_map.mp hf
    obtain ⟨before, after, ht, hstart⟩ := exists_of_mem_calls hc
    exact ⟨c.site, ⟨before, after, ht, hstart.symm⟩, rfl, rfl, Site.hasArgs_iff.mpr rfl, rfl⟩
  apart := List.pairwise_map.mpr (pairwise_locate 0 (pieces t))
  complete := by
    rintro s _ ⟨before, after, ht, rfl⟩
    rw [← flatMap_text_pieces t] at ht
    obtain ⟨c, hc, hle, hlt⟩ := exists_mem_locate 0 (isCut_pieces t) ht
    rw [Nat.zero_add] at hle hlt
    exact ⟨c.finding, List.mem_map_of_mem hc, hle, hlt⟩

lemma calls_eq_nil_iff (t : Text) : calls t = [] ↔ ∀ (s : Site) (p : Nat), ¬ s.At t p := by
  constructor
  · intro hnil s p hs
    obtain ⟨f, hf, _⟩ := (listing_calls t).complete s p hs
    rw [hnil] at hf
    cases hf
  · intro hnone
    apply List.eq_nil_iff_forall_not_mem.mpr
    intro c hc
    obtain ⟨s, hs, _⟩ := (listing_calls t).sound c.finding (List.mem_map_of_mem hc)
    exact hnone s c.finding.start hs

/-- The calls are the one listing of a text. There are none exactly where no site stands anywhere, and no call
has an empty part or a delimiter in it. -/
theorem listing_iff_eq_calls (t : Text) :
    (∀ found, Listing t found ↔ found = (calls t).map Call.finding) ∧
    (calls t = [] ↔ ∀ (s : Site) (p : Nat), ¬ s.At t p) ∧
    ∀ c ∈ calls t, c.args ≠ [] ∧ ')' ∉ c.args ∧ c.query ≠ [] ∧ '"' ∉ c.query := by
  refine ⟨?_, calls_eq_nil_iff t, ?_⟩
  · intro found
    constructor
    · intro h
      exact h.unique (listing_calls t)
    · rintro rfl
      exact listing_calls t
  · intro c _
    exact ⟨c.site.args_ne_nil, c.site.not_mem_args, c.site.query.text_ne_nil, c.site.query.stop_not_mem⟩

end ParamsWrap
