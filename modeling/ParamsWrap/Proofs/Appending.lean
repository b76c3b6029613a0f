import ParamsWrap.Proofs.Recognition
import ParamsWrap.Proofs.Rewrapping

/-!
# One text behind the other

What was cut of a text up to its last site stays as it is, whatever is put behind the text: an attempt that
failed before that site was decided by it. So a text shows the calls of every text that begins with it, as far
as they end in it. Where no call lies across the border of two texts, each of them is cut as if it stood alone.
-/

namespace ParamsWrap

/-- The call in a text that stands behind so many bytes. -/
def Call.moved (n : Nat) (c : Call) : Call := ⟨n + c.start, c.site⟩

lemma Call.stop_moved (n : Nat) (c : Call) : (c.moved n).stop = n + c.stop := Nat.add_assoc n c.start c.text.size

lemma locate_append (start : Nat) (ps qs : List Piece) :
    locate start (ps ++ qs) = locate start ps ++ locate (start + Text.size (ps.flatMap Piece.text)) qs := by
  induction ps generalizing start with
  | nil => rfl
  | cons p ps ih =>
    cases p with
    | char c =>
      rw [List.cons_append, locate, locate, ih, List.flatMap_cons, Text.size_append, Nat.add_assoc]
      rfl
    | site s =>
      rw [List.cons_append, locate, locate, ih, List.flatMap_cons, Text.size_append, Nat.add_assoc]
      rfl

lemma map_moved_locate (n start : Nat) (ps : List Piece) :
    (locate start ps).map (Call.moved n) = locate (n + start) ps := by
  induction ps generalizing start with
  | nil => rfl
  | cons p ps ih =>
    cases p with
    | char c => rw [locate, locate, ih, Nat.add_assoc]
    | site s => rw [locate, locate, List.map_cons, ih, Nat.add_assoc, Call.moved]

@[simp] lemma calls_nil : calls [] = [] := by
  rw [calls, pieces_nil, locate]

/-- A site is the one piece of its own text. -/
lemma pieces_site_text (s : Site) : pieces s.text = [.site s] := by
  have halone := pieces_of_read? (Site.read?_text_append s [])
  rwa [List.append_nil, pieces_nil] at halone

/-- Behind each other the texts are cut as if each stood alone. -/
def Separate (a b : Text) : Prop := pieces (a ++ b) = pieces a ++ pieces b

namespace Separate

variable {a b c : Text}

lemma nil_left (t : Text) : Separate [] t := by
  rw [Separate, pieces_nil]
  rfl

lemma text_left (s : Site) (t : Text) : Separate s.text t := by
  rw [Separate, pieces_site_text, pieces_of_read? (Site.read?_text_append s t)]
  rfl

lemma append (hab : Separate a b) (hbc : Separate b c) (habc : Separate a (b ++ c)) : Separate (a ++ b) c := by
  rw [Separate, hab, List.append_assoc, habc, hbc, List.append_assoc]

theorem calls_append (h : Separate a b) : calls (a ++ b) = calls a ++ (calls b).map (Call.moved a.size) := by
  have hstart : 0 + Text.size ((pieces a).flatMap Piece.text) = a.size + 0 := by
    rw [flatMap_text_pieces, Nat.zero_add, Nat.add_zero]
  rw [calls, h, locate_append, hstart, ← map_moved_locate]
  rfl

theorem wrap_append (h : Separate a b) : wrap (a ++ b) = wrap a ++ wrap b := by
  rw [wrap, h, List.flatMap_append]
  rfl

end Separate

/-! ### What stands behind the last site -/

lemma read?_eq_none_of_meets {c : Char} {x y : Text} {s : Site}
    (h : Site.read? (c :: (x ++ (s.text ++ y))) = none) (z : Text) :
    Site.read? (c :: (x ++ (s.text ++ z))) = none := by
  have hmeets (t : Text) :
      Attempt.start.run (c :: (x ++ (s.text ++ t))) = ((Attempt.start.next c).run x).meet s.query.text := by
    rw [Attempt.run_cons, Attempt.run_append, Attempt.run_text ((Attempt.underway_next_start c).run x)]
  rw [Attempt.read?_eq_none_iff, hmeets] at h ⊢
  exact h

/-- The text ends with a site, or there is nothing of it. -/
def EndsInSite (t : Text) : Prop := t = [] ∨ ∃ ps s, pieces t = ps ++ [.site s]

lemma eq_append_text_of_pieces {t : Text} {ps : List Piece} {s : Site} (h : pieces t = ps ++ [.site s]) :
    t = ps.flatMap Piece.text ++ s.text := by
  rw [← flatMap_text_pieces t, h, List.flatMap_append, List.flatMap_singleton]
  rfl

lemma calls_cons_of_read?_eq_none {c : Char} {t : Text} (h : Site.read? (c :: t) = none) :
    calls (c :: t) = (calls t).map (Call.moved c.utf8Size) := by
  rw [calls, pieces_cons_of_read?_eq_none h, calls, map_moved_locate, locate, Nat.add_comm]

/-- Up to its last site a text is cut the same whatever stands behind, and there are no calls in the rest. -/
lemma exists_separate (a : Text) :
    ∃ u v, a = u ++ v ∧ calls v = [] ∧ EndsInSite u ∧ ∀ w, Separate u w := by
  induction a using cut_induction with
  | nil => exact ⟨[], [], rfl, calls_nil, .inl rfl, Separate.nil_left⟩
  | char c rest hread ih =>
    obtain ⟨u, v, rfl, hv, rfl | ⟨ps, s, hlast⟩, hu⟩ := ih
    · have hcalls := calls_cons_of_read?_eq_none hread
      rw [List.nil_append, hv, List.map_nil] at hcalls
      exact ⟨[], c :: v, rfl, hcalls, .inl rfl, Separate.nil_left⟩
    · -- The attempt at the new character was decided by the last site, so it fails before any rest.
      have htext := eq_append_text_of_pieces hlast
      have hpieces (w : Text) : pieces (c :: (u ++ w)) = .char c :: pieces (u ++ w) := by
        apply pieces_cons_of_read?_eq_none
        rw [htext, List.append_assoc] at hread ⊢
        exact read?_eq_none_of_meets hread w
      have halone := hpieces []
      rw [List.append_nil] at halone
      refine ⟨c :: u, v, rfl, hv, .inr ⟨.char c :: ps, s, by rw [halone, hlast, List.cons_append]⟩, ?_⟩
      intro w
      rw [Separate, halone, List.cons_append, hpieces, hu w, List.cons_append]
  | site s rest ih =>
    obtain ⟨u, v, rfl, hv, hends, hu⟩ := ih
    have hpieces := pieces_of_read? (Site.read?_text_append s u)
    refine ⟨s.text ++ u, v, (List.append_assoc _ _ _).symm, hv, .inr ?_, ?_⟩
    · rcases hends with rfl | ⟨ps, last, hlast⟩
      · exact ⟨[], s, by rw [hpieces, pieces_nil, List.nil_append]⟩
      · exact ⟨.site s :: ps, last, by rw [hpieces, hlast, List.cons_append]⟩
    · intro w
      exact (Separate.text_left s u).append (hu w) (Separate.text_left s (u ++ w))

/-- Behind a text without calls, no call ends in it. -/
lemma size_lt_stop_of_mem_calls_append {v b : Text} (hv : calls v = []) {c : Call} (hc : c ∈ calls (v ++ b)) :
    v.size < c.stop := by
  by_contra hle
  obtain ⟨before, after, ht, hstart⟩ := exists_of_mem_calls hc
  rw [← List.append_assoc] at ht
  have hsize : Text.size (before ++ c.text) ≤ v.size := by
    rw [Text.size_append, ← hstart]
    exact Nat.le_of_not_lt hle
  obtain ⟨e, rfl, _⟩ := Text.exists_append_of_size_le ht.symm hsize
  exact (calls_eq_nil_iff _).mp hv c.site _ ⟨before, e, List.append_assoc _ _ _, rfl⟩

lemma getLast?_calls_of_endsInSite {u : Text} (h : EndsInSite u) :
    u.size = ((calls u).getLast?.map Call.stop).getD 0 ∧
      ∀ c, (calls u).getLast? = some c → c.wrapped <:+ wrap u := by
  rcases h with rfl | ⟨ps, s, hlast⟩
  · simp
  · have hu : u.size = Text.size (ps.flatMap Piece.text) + s.text.size := by
      rw [eq_append_text_of_pieces hlast, Text.size_append]
    have hcall : (calls u).getLast? = some ⟨Text.size (ps.flatMap Piece.text), s⟩ := by
      rw [calls, hlast, locate_append]
      simp [locate]
    rw [hcall]
    refine ⟨hu, ?_⟩
    rintro _ ⟨⟩
    rw [wrap, hlast, List.flatMap_append]
    exact ⟨ps.flatMap Piece.wrapped, by simp [Piece.wrapped, Call.wrapped]⟩

/-- The calls of a text are those calls of a longer one that end in it, and come first there. The two are wrapped
alike up to the end of the last of these calls. -/
theorem calls_eq_filter_calls_append (a b : Text) :
    calls a = (calls (a ++ b)).filter (fun c => c.stop ≤ a.size) ∧ calls a <+: calls (a ++ b) ∧
    ∃ u v, a = u ++ v ∧ u.size = ((calls a).getLast?.map Call.stop).getD 0 ∧
      (∀ c, (calls a).getLast? = some c → c.wrapped <:+ wrap u) ∧
      wrap a = wrap u ++ v ∧ wrap (a ++ b) = wrap u ++ wrap (v ++ b) := by
  obtain ⟨u, v, rfl, hv, hends, hu⟩ := exists_separate a
  have hfront : calls (u ++ v) = calls u := by rw [(hu v).calls_append, hv, List.map_nil, List.append_nil]
  have hall := (hu (v ++ b)).calls_append
  obtain ⟨hsize, hwrapped⟩ := getLast?_calls_of_endsInSite hends
  rw [hfront, List.append_assoc, hall]
  refine ⟨?_, List.prefix_append _ _, u, v, rfl, hsize, hwrapped, ?_, (hu (v ++ b)).wrap_append⟩
  · have hkept : (calls u).filter (fun c => c.stop ≤ Text.size (u ++ v)) = calls u := by
      rw [List.filter_eq_self]
      intro c hc
      have hstop := (span_of_mem_calls hc).2.1
      rw [decide_eq_true_iff, Text.size_append]
      omega
    have hlost : ((calls (v ++ b)).map (Call.moved u.size)).filter (fun c => c.stop ≤ Text.size (u ++ v)) = [] := by
      rw [List.filter_eq_nil_iff, List.forall_mem_map]
      intro c hc
      have hstop := size_lt_stop_of_mem_calls_append hv hc
      rw [decide_eq_true_iff, Text.size_append, Call.stop_moved]
      omega
    rw [List.filter_append, hkept, hlost, List.append_nil]
  · rw [(hu v).wrap_append, wrap_eq_self_iff.mpr hv]

/-! ### A border that no call lies across -/

lemma Site.read?_eq_none_of_append {t more : Text} (h : read? (t ++ more) = none) : read? t = none := by
  cases hread : read? t with
  | none => rfl
  | some found =>
    rw [eq_text_append_of_read? hread, List.append_assoc, read?_text_append] at h
    cases h

lemma IsCut.of_append {ps qs : List Piece} (h : IsCut (ps ++ qs)) : IsCut ps ∧ IsCut qs := by
  induction ps with
  | nil => exact ⟨trivial, h⟩
  | cons p ps ih =>
    cases p with
    | char c =>
      rw [List.cons_append] at h
      obtain ⟨hread, hrest⟩ := h
      obtain ⟨hps, hqs⟩ := ih hrest
      rw [List.flatMap_append, ← List.cons_append] at hread
      exact ⟨⟨Site.read?_eq_none_of_append hread, hps⟩, hqs⟩
    | site s => exact ih h

/-- Pieces of which no site lies across a border are pieces of what stands before it and of what stands behind. -/
lemma exists_pieces_of_border {ps : List Piece} {start : Nat} {a b : Text} (ht : ps.flatMap Piece.text = a ++ b)
    (hborder : ∀ c ∈ locate start ps, ¬ (c.start < start + a.size ∧ start + a.size < c.stop)) :
    ∃ qs rs, ps = qs ++ rs ∧ qs.flatMap Piece.text = a ∧ rs.flatMap Piece.text = b := by
  induction ps generalizing start a with
  | nil =>
    obtain ⟨rfl, rfl⟩ := List.append_eq_nil_iff.mp ht.symm
    exact ⟨[], [], rfl, rfl, rfl⟩
  | cons p ps ih =>
    cases a with
    | nil => exact ⟨[], p :: ps, rfl, rfl, ht⟩
    | cons d a =>
      cases p with
      | char c =>
        obtain ⟨rfl, hrest⟩ := List.cons.inj ht
        rw [Text.size_cons, ← Nat.add_assoc] at hborder
        obtain ⟨qs, rs, rfl, rfl, hrs⟩ := ih hrest hborder
        exact ⟨.char c :: qs, rs, rfl, rfl, hrs⟩
      | site s =>
        -- The site begins before the border, so it ends there or before it.
        have hfront : s.text ++ ps.flatMap Piece.text = d :: a ++ b := ht
        have hpos := Text.size_pos (List.cons_ne_nil d a)
        have hsite : ¬ (start < start + Text.size (d :: a) ∧ start + Text.size (d :: a) < start + s.text.size) :=
          hborder ⟨start, s⟩ List.mem_cons_self
        have hle : s.text.size ≤ Text.size (d :: a) := by omega
        obtain ⟨e, he, hrest⟩ := Text.exists_append_of_size_le hfront hle
        have hend : start + Text.size (d :: a) = start + s.text.size + e.size := by
          rw [he, Text.size_append, Nat.add_assoc]
        rw [hend] at hborder
        obtain ⟨qs, rs, rfl, rfl, hrs⟩ := ih hrest fun c hc => hborder c (List.mem_cons_of_mem _ hc)
        exact ⟨.site s :: qs, rs, rfl, he.symm, hrs⟩

lemma separate_of_border {a b : Text}
    (hborder : ∀ c ∈ calls (a ++ b), ¬ (c.start < a.size ∧ a.size < c.stop)) : Separate a b := by
  rw [← Nat.zero_add a.size] at hborder
  obtain ⟨qs, rs, hps, rfl, rfl⟩ := exists_pieces_of_border (flatMap_text_pieces (a ++ b)) hborder
  have hcut := isCut_pieces (qs.flatMap Piece.text ++ rs.flatMap Piece.text)
  rw [hps] at hcut
  obtain ⟨hqs, hrs⟩ := hcut.of_append
  rw [Separate, hps, hqs.pieces_text, hrs.pieces_text]

/-- A call is the one call of its own text. -/
lemma calls_text (s : Site) : calls s.text = [⟨0, s⟩] ∧ wrap s.text = s.wrapped := by
  rw [calls, wrap, pieces_site_text]
  exact ⟨rfl, List.append_nil _⟩

/-- Where no call lies across the border of two texts, the calls are those of the first and, moved by its size, those
of the second, and each text is wrapped for itself. A call that is taken out of its text is found again alone. -/
theorem calls_append_of_border {a b : Text}
    (hborder : ∀ c ∈ calls (a ++ b), ¬ (c.start < a.size ∧ a.size < c.stop)) :
    (calls (a ++ b)).map Call.finding = (calls a).map Call.finding ++
      (calls b).map (fun c => ⟨a.size + c.start, a.size + c.stop, c.query, c.args, c.text⟩) ∧
    wrap (a ++ b) = wrap a ++ wrap b ∧
    ∀ t, ∀ c ∈ calls t, (calls c.text).map Call.finding = [⟨0, c.text.size, c.query, c.args, c.text⟩] ∧
      wrap c.text = c.wrapped := by
  have hseparate := separate_of_border hborder
  have hmoved : Call.finding ∘ Call.moved a.size =
      fun c => ⟨a.size + c.start, a.size + c.stop, c.query, c.args, c.text⟩ := by
    funext c
    rw [Function.comp_apply, Call.finding, Call.stop_moved]
    rfl
  refine ⟨?_, hseparate.wrap_append, ?_⟩
  · rw [hseparate.calls_append, List.map_append, List.map_map, hmoved]
  · intro t c _
    obtain ⟨hcalls, hwrap⟩ := calls_text c.site
    refine ⟨?_, hwrap⟩
    rw [Call.text, hcalls, List.map_singleton, Call.finding, Call.stop, Nat.zero_add]
    rfl

/-- The border lies in the marker of an attempt that fails, between two calls. -/
theorem calls_append_of_border_in_marker :
    let a : Text := Site.opening ++ ['"', 'q', '"', ',', ' ', 'x', ')', 't', 'x', '.', 'e']
    let b : Text := ['x', 'e', 'c', '(', ')', ';'] ++ Site.opening ++ ['"', 'r', '"', ',', 'é', ')']
    (∀ c ∈ calls (a ++ b), ¬ (c.start < a.size ∧ a.size < c.stop)) ∧ (calls a).length = 1 ∧ (calls b).length = 1 ∧
      (calls (a ++ b)).map Call.finding = (calls a).map Call.finding ++
        (calls b).map (fun c => ⟨a.size + c.start, a.size + c.stop, c.query, c.args, c.text⟩) ∧
      wrap (a ++ b) = wrap a ++ wrap b := by
  intro a b
  have hborder : ∀ c ∈ calls (a ++ b), ¬ (c.start < a.size ∧ a.size < c.stop) := by decide +kernel
  have ha : (calls a).length = 1 := by decide +kernel
  have hb : (calls b).length = 1 := by decide +kernel
  obtain ⟨hcalls, hwrap, _⟩ := calls_append_of_border hborder
  exact ⟨hborder, ha, hb, hcalls, hwrap⟩

end ParamsWrap
