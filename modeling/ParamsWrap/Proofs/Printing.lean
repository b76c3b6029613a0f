import ParamsWrap.Proofs.Recognition
import ParamsWrap.Proofs.Rewrapping

/-!
# Printed calls are found again

Texts that do not hold `tx.exec(` may be woven with the texts of sites. No opening begins in such a gap: it does
not fit into the gap, and it cannot run on into the site behind, which begins with a character that the opening
has nowhere but at its front. So the text is cut where it was put together, whatever the queries and the
arguments hold.
-/

namespace ParamsWrap

lemma Site.opening_isPrefix_text_append (s : Site) (rest : Text) : opening <+: s.text ++ rest := by
  rw [text_eq, List.append_assoc]
  exact List.prefix_append _ _

lemma read?_eq_none_of_not_opening {t : Text} (h : ¬ Site.opening <+: t) : Site.read? t = none := by
  cases hread : Site.read? t with
  | none => rfl
  | some found =>
    rw [Site.eq_text_append_of_read? hread] at h
    exact absurd (Site.opening_isPrefix_text_append _ _) h

/-- An opening that begins in a gap lies in it, when a `t` or nothing stands behind. -/
lemma not_opening_isPrefix_append {g t : Text} (hne : g ≠ []) (hg : ¬ Site.opening <:+: g)
    (ht : ∀ c ∈ t.head?, c = 't') : ¬ Site.opening <+: g ++ t := by
  rintro ⟨rest, hrest⟩
  rcases List.append_eq_append_iff.mp hrest with ⟨inside, rfl, _⟩ | ⟨beyond, hopening, rfl⟩
  · exact hg (List.prefix_append _ _).isInfix
  · cases beyond with
    | nil =>
      rw [List.append_nil] at hopening
      exact hg (hopening ▸ List.infix_refl _)
    | cons c beyond =>
      -- The opening would run on into `t`, but it has its `t` only at the front, where the gap stands.
      obtain rfl : c = 't' := ht c rfl
      obtain ⟨d, g, rfl⟩ := List.exists_cons_of_ne_nil hne
      have hmem : 't' ∈ Site.opening.tail := by
        rw [hopening]
        exact List.mem_append_right g List.mem_cons_self
      exact absurd hmem (by decide)

lemma pieces_gap_append {g t : Text} (hg : ¬ Site.opening <:+: g) (ht : ∀ c ∈ t.head?, c = 't') :
    pieces (g ++ t) = g.map .char ++ pieces t := by
  induction g with
  | nil => rfl
  | cons c g ih =>
    have hread : Site.read? (c :: (g ++ t)) = none :=
      read?_eq_none_of_not_opening (not_opening_isPrefix_append (List.cons_ne_nil c g) hg ht)
    have hrest : ¬ Site.opening <:+: g := fun h => hg (h.trans (List.suffix_cons c g).isInfix)
    rw [List.cons_append, pieces_cons_of_read?_eq_none hread, ih hrest]
    rfl

/-- The gaps and the sites that a text is woven of are those that it is cut into. -/
lemma gapsOf_sites_pieces_weave {gs : List Text} {ss : List Site} (hlen : gs.length = ss.length + 1)
    (hgs : ∀ g ∈ gs, ¬ Site.opening <:+: g) :
    gapsOf (pieces (weave gs (ss.map Site.text))) = gs ∧ sites (pieces (weave gs (ss.map Site.text))) = ss := by
  induction ss generalizing gs with
  | nil =>
    obtain ⟨g, rfl⟩ := List.length_eq_one_iff.mp hlen
    have hpieces := pieces_gap_append (t := []) (hgs g (List.mem_singleton_self g)) (by simp)
    rw [List.map_nil, weave, ← List.append_nil g, hpieces, pieces_nil, gapsOf_loose_append, sites_loose_append]
    exact ⟨rfl, rfl⟩
  | cons s ss ih =>
    obtain ⟨g, gs, rfl⟩ := List.exists_cons_of_length_eq_add_one hlen
    obtain ⟨hgaps, hsites⟩ := ih (Nat.add_right_cancel hlen) fun g' hg' => hgs g' (List.mem_cons_of_mem g hg')
    have hfirst : ∀ c ∈ (s.text ++ weave gs (ss.map Site.text)).head?, c = 't' := by
      rintro c ⟨⟩
      rfl
    rw [List.map_cons, weave, pieces_gap_append (hgs g List.mem_cons_self) hfirst,
      pieces_of_read? (Site.read?_text_append s _), gapsOf_loose_append, sites_loose_append, gapsOf, sites_site,
      hgaps, hsites, List.modifyHead_cons, List.append_nil]
    exact ⟨rfl, rfl⟩

/-- Texts without an opening, woven with the texts of sites, show exactly these sites as calls, each where it was
printed. A text without an opening has no calls and is left as it is. -/
theorem calls_weave {gs : List Text} {ss : List Site} (hlen : gs.length = ss.length + 1)
    (hgs : ∀ g ∈ gs, ¬ Site.opening <:+: g) :
    let t := weave gs (ss.map Site.text)
    (calls t).length = ss.length ∧
    (∀ i s, ss[i]? = some s → ∃ before after c, t = before ++ (s.text ++ after) ∧
      before = weave (gs.take (i + 1)) ((ss.map Site.text).take i) ∧ (calls t)[i]? = some c ∧
      c.start = Text.size before ∧ c.stop = Text.size (before ++ s.text) ∧ c.query = s.query.text ∧
      s.HasArgs c.args ∧ c.text = s.text) ∧
    wrap t = weave gs ((calls t).map fun c => Site.opening ++ '"' :: c.query ++ '"' :: ',' :: ' ' :: wrapper ++
      '(' :: c.args ++ [')', ')']) ∧
    ∀ g, ¬ Site.opening <:+: g → calls g = [] ∧ wrap? g = none ∧ wrap g = g := by
  intro t
  obtain ⟨hgaps, hsites⟩ := gapsOf_sites_pieces_weave hlen hgs
  refine ⟨?_, ?_, ?_, ?_⟩
  · rw [← List.length_map (f := Call.site), map_site_calls, hsites]
  · intro i s hs
    have hget : (ss.map Site.text)[i]? = some s.text := by rw [List.getElem?_map, hs, Option.map_some]
    have hlen' : gs.length = (ss.map Site.text).length + 1 := by rw [List.length_map, hlen]
    obtain ⟨after, hafter⟩ := weave_eq_append hlen' hget
    have hcall := getElem?_calls t i
    rw [gaps, hgaps, hsites, hs, Option.map_some] at hcall
    exact ⟨_, after, _, hafter, rfl, hcall, rfl, (Text.size_append _ _).symm, rfl, Site.hasArgs_iff.mpr rfl, rfl⟩
  · have hwrapped := weave_wrapped t
    rw [gaps, hgaps] at hwrapped
    exact hwrapped.symm
  · intro g hg
    have hnil : calls g = [] := by
      have hone : ∀ g' ∈ [g], ¬ Site.opening <:+: g' := by simpa using hg
      have hcount : [g].length = ([] : List Site).length + 1 := rfl
      have hnone := (gapsOf_sites_pieces_weave hcount hone).2
      rwa [List.map_nil, weave, ← map_site_calls, List.map_eq_nil_iff] at hnone
    exact ⟨hnil, by rw [wrap?_eq, if_pos hnil], wrap_eq_self_iff.mpr hnil⟩

/-- A gap ends within an opening, a query holds a whole one, and the second call has nothing but blanks behind its
comma. -/
theorem calls_weave_with_openings :
    let gs : List Text := [['"', '(', 't', 'x', '.', 'e'], marker, [')', ',', '"']]
    let ss : List Site := [⟨⟨[' ', '\n'], rfl⟩, ⟨Site.opening ++ ['é'], by decide, by decide⟩,
      ⟨[' '] ++ Site.opening ++ ['"'], by decide, by decide⟩⟩,
      ⟨⟨[], rfl⟩, ⟨['q'], by decide, by decide⟩, ⟨['\t', ' '], by decide, by decide⟩⟩]
    let t := weave gs (ss.map Site.text)
    gs.length = ss.length + 1 ∧ (∀ g ∈ gs, ¬ Site.opening <:+: g) ∧ (calls t).length = 2 ∧
      (calls t).map Call.args = [Site.opening ++ ['"'], [' ']] ∧
      wrap t = weave gs ((calls t).map fun c => Site.opening ++ '"' :: c.query ++ '"' :: ',' :: ' ' :: wrapper ++
        '(' :: c.args ++ [')', ')']) := by
  intro gs ss t
  have hlen : gs.length = ss.length + 1 := by decide
  have hgs : ∀ g ∈ gs, ¬ Site.opening <:+: g := by decide
  obtain ⟨hcount, _, hwrap, _⟩ := calls_weave hlen hgs
  have hargs : (calls t).map Call.args = [Site.opening ++ ['"'], [' ']] := by decide +kernel
  exact ⟨hlen, hgs, hcount, hargs, hwrap⟩

end ParamsWrap
