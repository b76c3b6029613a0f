import ParamsWrap.Proofs.Splice
import Mathlib.Logic.Function.Iterate

/-!
# Wrapping again and again

A wrapped site is a site with the same query, whose arguments are the old ones behind a wrapper, and one
parenthesis more. No parenthesis begins a site, so each pass finds the sites of the pass before it and no
others. After `n` passes there are `n` wrappers before the arguments of each site, and `n` parentheses behind
the site.
-/

namespace ParamsWrap

/-- A number of opened wrappers. -/
def nested (n : Nat) : Text := (List.replicate n (wrapper ++ ['('])).flatten

def closers (n : Nat) : Text := List.replicate n ')'

lemma nested_succ (n : Nat) : nested (n + 1) = wrapper ++ '(' :: nested n := by
  simp [nested, List.replicate_succ]

lemma closers_succ (n : Nat) : closers (n + 1) = ')' :: closers n := rfl

lemma size_nested (n : Nat) : Text.size (nested n) = 13 * n := by
  induction n with
  | zero => rfl
  | succ n ih =>
    have hwrapper : Text.size wrapper = 12 := by decide
    have hopen : Char.utf8Size '(' = 1 := by decide
    rw [nested_succ, Text.size_append, Text.size_cons, ih, hwrapper, hopen]
    omega

lemma size_closers (n : Nat) : Text.size (closers n) = n := by
  induction n with
  | zero => rfl
  | succ n ih =>
    have hclose : Char.utf8Size ')' = 1 := by decide
    rw [closers_succ, Text.size_cons, ih, hclose]
    omega

lemma not_mem_closers (n : Nat) : 't' ∉ closers n := by
  intro h
  have heq := List.eq_of_mem_replicate h
  exact absurd heq (by decide)

namespace Site

/-- The site that a wrapped site begins with. It ends before the last parenthesis. -/
def again (s : Site) : Site where
  lead := ⟨[], rfl⟩
  query := s.query
  inner :=
    { text := ' ' :: wrapper ++ '(' :: s.args
      text_ne_nil := List.cons_ne_nil _ _
      stop_not_mem := by
        have hargs := s.not_mem_args
        simp [wrapper, hargs] }

lemma wrapped_eq (s : Site) : s.wrapped = s.again.text ++ [')'] := by
  simp [wrapped, text, again]

lemma args_again (s : Site) : s.again.args = wrapper ++ '(' :: s.args := by
  have hspace : isBlank ' ' = true := by decide
  have hfirst : isBlank 'p' = false := by decide
  simp [args, again, wrapper, hspace, hfirst]

lemma query_iterate_again (n : Nat) (s : Site) : (again^[n] s).query = s.query := by
  induction n with
  | zero => rfl
  | succ n ih =>
    rw [Function.iterate_succ_apply']
    exact ih

lemma args_iterate_again (n : Nat) (s : Site) : (again^[n] s).args = nested n ++ s.args := by
  induction n with
  | zero => rfl
  | succ n ih =>
    rw [Function.iterate_succ_apply', args_again, ih, nested_succ, List.append_assoc, List.cons_append]

/-- What stands for a site after a number of passes. -/
def rewrapped (n : Nat) (s : Site) : Text :=
  opening ++ '"' :: s.query.text ++ '"' :: ',' :: ' ' :: nested n ++ s.args ++ closers (n + 1)

lemma text_iterate_again {n : Nat} (hn : 0 < n) (s : Site) :
    (again^[n] s).text ++ closers n = s.rewrapped n := by
  obtain ⟨n, rfl⟩ := Nat.exists_eq_add_one.mpr hn
  have hquery := query_iterate_again n s
  have hargs := args_iterate_again n s
  have hwrapped := wrapped_eq (again^[n] s)
  rw [wrapped, hquery, hargs] at hwrapped
  rw [Function.iterate_succ_apply', closers_succ, List.append_cons, ← hwrapped]
  simp [rewrapped, nested_succ, closers_succ]

lemma rewrapped_eq {n : Nat} (hn : 0 < n) :
    (fun s => (again^[n] s).text ++ closers n) = rewrapped n := by
  funext s
  exact text_iterate_again hn s

lemma size_rewrapped (n : Nat) (s : Site) : (s.rewrapped n).size = (s.rewrapped 0).size + 14 * n := by
  simp only [rewrapped, Text.size_append, Text.size_cons, size_nested, size_closers]
  omega

end Site

def Call.rewrapped (n : Nat) (c : Call) : Text := c.site.rewrapped n

/-! ### The passes over a text -/

lemma flatMap_text_retouch (f : Site → Site) (loose : Text) (ps : List Piece) :
    (ps.flatMap (Piece.retouch f loose)).flatMap Piece.text =
      ps.flatMap (Piece.fill fun s => (f s).text ++ loose) := by
  rw [List.flatMap_assoc]
  congr 1
  funext p
  cases p with
  | char c => rfl
  | site s => simp [Piece.retouch, Piece.fill, Piece.text, List.flatMap_map]

lemma flatMap_retouch_loose (f : Site → Site) (loose more : Text) :
    (loose.map Piece.char).flatMap (Piece.retouch f more) = loose.map Piece.char := by
  rw [List.flatMap_map, List.map_eq_flatMap]
  rfl

lemma flatMap_retouch_retouch (f g : Site → Site) (loose more : Text) (ps : List Piece) :
    (ps.flatMap (Piece.retouch f loose)).flatMap (Piece.retouch g more) =
      ps.flatMap (Piece.retouch (g ∘ f) (more ++ loose)) := by
  rw [List.flatMap_assoc]
  congr 1
  funext p
  cases p with
  | char c => rfl
  | site s =>
    rw [Piece.retouch, List.flatMap_cons, flatMap_retouch_loose, Piece.retouch, List.cons_append,
      ← List.map_append]
    rfl

lemma sites_retouch (f : Site → Site) (loose : Text) (ps : List Piece) :
    sites (ps.flatMap (Piece.retouch f loose)) = (sites ps).map f := by
  induction ps with
  | nil => rfl
  | cons p ps ih =>
    cases p with
    | char c => exact ih
    | site s =>
      rw [List.flatMap_cons, Piece.retouch, List.cons_append, sites_site, sites_loose_append, ih]
      rfl

lemma pieces_wrap (t : Text) :
    pieces (wrap t) = (pieces t).flatMap (Piece.retouch Site.again (closers 1)) := by
  have hwrapped : Site.wrapped = fun s => s.again.text ++ closers 1 := by
    funext s
    exact s.wrapped_eq
  have hquery : ∀ s : Site, s.again.query = s.query := fun s => rfl
  have hwrap : wrap t =
      ((pieces t).flatMap (Piece.retouch Site.again (closers 1))).flatMap Piece.text := by
    rw [flatMap_text_retouch, wrap, Piece.wrapped_eq_fill, hwrapped]
  rw [hwrap]
  exact pieces_retouch hquery (not_mem_closers 1) t

theorem pieces_iterate_wrap (n : Nat) (t : Text) :
    pieces (wrap^[n] t) = (pieces t).flatMap (Piece.retouch Site.again^[n] (closers n)) := by
  induction n with
  | zero =>
    have hid : Piece.retouch Site.again^[0] (closers 0) = fun p => [p] := retouch_id
    rw [hid, List.flatMap_singleton']
    rfl
  | succ n ih =>
    rw [Function.iterate_succ_apply', pieces_wrap, ih, flatMap_retouch_retouch, Function.iterate_succ']
    rfl

lemma map_rewrapped_calls (n : Nat) (t : Text) :
    (calls t).map (Call.rewrapped n) = (sites (pieces t)).map (Site.rewrapped n) :=
  map_calls (Site.rewrapped n) t

lemma iterate_wrap_eq_weave {n : Nat} (hn : 0 < n) (t : Text) :
    wrap^[n] t = weave (gaps t) ((calls t).map (Call.rewrapped n)) := by
  rw [← flatMap_text_pieces (wrap^[n] t), pieces_iterate_wrap, flatMap_text_retouch,
    Site.rewrapped_eq hn, map_rewrapped_calls, gaps, weave_gapsOf]

/-- After a number of passes each call is the site behind as many wrappers, and begins behind the gaps up to it
and what stands for the calls before it. -/
lemma getElem?_calls_iterate_wrap {n : Nat} (hn : 0 < n) (t : Text) (i : Nat) :
    (calls (wrap^[n] t))[i]? = (calls t)[i]?.map fun c =>
      ⟨(weave ((gaps t).take (i + 1)) (((calls t).map (Call.rewrapped n)).take i)).size,
        Site.again^[n] c.site⟩ := by
  have hlocate := getElem?_locate_retouch Site.again^[n] (closers n) 0 (pieces t) i
  rw [Site.rewrapped_eq hn, ← map_rewrapped_calls, ← map_site_calls, List.getElem?_map, Option.map_map] at hlocate
  rw [calls, pieces_iterate_wrap, hlocate]
  simp [gaps, Function.comp_def]

lemma map_query_calls_iterate_wrap (n : Nat) (t : Text) :
    (calls (wrap^[n] t)).map Call.query = (calls t).map Call.query := by
  have hsite : (fun s => (Site.again^[n] s).query.text) = fun s => s.query.text := by
    funext s
    rw [Site.query_iterate_again]
  have hcalls (t : Text) : (calls t).map Call.query = (sites (pieces t)).map fun s => s.query.text :=
    map_calls (fun s => s.query.text) t
  rw [hcalls, hcalls, pieces_iterate_wrap, sites_retouch, List.map_map]
  exact congrArg (fun f => (sites (pieces t)).map f) hsite

lemma size_iterate_wrap {n : Nat} (hn : 0 < n) (t : Text) : (wrap^[n] t).size =
    (weave (gaps t) ((calls t).map (Call.rewrapped 0))).size + 14 * n * (calls t).length := by
  have hgrow (c : Call) : (c.rewrapped n).size = (c.rewrapped 0).size + 14 * n := c.site.size_rewrapped n
  rw [iterate_wrap_eq_weave hn, weave_map_add Text.size_append hgrow (length_gaps t)]

lemma size_iterate_wrap_succ {n : Nat} (hn : 0 < n) (t : Text) :
    (wrap^[n + 1] t).size = (wrap^[n] t).size + 14 * (calls t).length := by
  rw [size_iterate_wrap n.add_one_pos, size_iterate_wrap hn, Nat.mul_add, Nat.add_mul]
  omega

/-- Where there are calls no pass gives an earlier text again. -/
lemma injective_iterate_wrap {t : Text} (ht : calls t ≠ []) : Function.Injective fun n => wrap^[n] t := by
  intro m n h
  -- The text itself has any size. One pass more makes both sizes tell their pass.
  have hnext : wrap^[m + 1] t = wrap^[n + 1] t := by
    rw [Function.iterate_succ_apply', Function.iterate_succ_apply']
    exact congrArg wrap h
  have hsize := congrArg Text.size hnext
  rw [size_iterate_wrap m.add_one_pos, size_iterate_wrap n.add_one_pos] at hsize
  have hcount := Nat.eq_of_mul_eq_mul_right (List.length_pos_of_ne_nil ht) (Nat.add_left_cancel hsize)
  omega

/-- A text with a call in it is never wrapped to itself, even where it keeps its size. -/
theorem wrap_eq_self_iff {t : Text} : wrap t = t ↔ calls t = [] := by
  constructor
  · intro h
    by_contra hne
    have hpass : 1 = 0 := injective_iterate_wrap hne h
    cases hpass
  · intro hnil
    have hwrapped := weave_wrapped t
    have htext := weave_text t
    rw [hnil, List.map_nil] at hwrapped htext
    rw [← hwrapped, htext]

lemma any_isSite_pieces_eq_false_iff {t : Text} : (pieces t).any Piece.isSite = false ↔ calls t = [] := by
  rw [← List.map_eq_nil_iff (f := Call.site), map_site_calls, sites, List.filterMap_eq_nil_iff, List.any_eq_false]
  apply forall₂_congr
  rintro (c | s) _
  · exact iff_of_true Bool.false_ne_true rfl
  · exact iff_of_false (not_not_intro rfl) (Option.some_ne_none s)

/-- A new text is made where there are calls. -/
theorem wrap?_eq (t : Text) : wrap? t = if calls t = [] then none else some (wrap t) := by
  rw [wrap?, ← ite_not]
  simp only [Bool.not_eq_true, any_isSite_pieces_eq_false_iff]

lemma length_calls_iterate_wrap (n : Nat) (t : Text) : (calls (wrap^[n] t)).length = (calls t).length := by
  have hlen := congrArg List.length (map_query_calls_iterate_wrap n t)
  rwa [List.length_map, List.length_map] at hlen

/-- A call after a number of passes is what stands for the call before them, up to the first parenthesis of
those behind it. -/
lemma exists_call_iterate_wrap {n : Nat} (hn : 0 < n) {t : Text} {i : Nat} {c : Call}
    (hc : (calls t)[i]? = some c) :
    ∃ before after d, wrap^[n] t = before ++ (c.rewrapped n ++ after) ∧
      before = weave ((gaps t).take (i + 1)) (((calls t).take i).map (Call.rewrapped n)) ∧
      (calls (wrap^[n] t))[i]? = some d ∧ d.query = c.query ∧ d.args = nested n ++ c.args ∧
      d.text ++ closers n = c.rewrapped n ∧ d.start = Text.size before ∧
      d.stop + n = d.start + (c.rewrapped n).size := by
  obtain ⟨after, hafter⟩ := weave_calls_eq_append (Call.rewrapped n) hc
  rw [← iterate_wrap_eq_weave hn] at hafter
  have hcall := getElem?_calls_iterate_wrap hn t i
  rw [hc, ← List.map_take] at hcall
  have hquery := congrArg Field.text (Site.query_iterate_again n c.site)
  have htext : (Site.again^[n] c.site).text ++ closers n = c.rewrapped n := Site.text_iterate_again hn c.site
  refine ⟨_, after, _, hafter, rfl, hcall, hquery, Site.args_iterate_again n c.site, htext, rfl, ?_⟩
  rw [← htext, Text.size_append, size_closers]
  exact Nat.add_assoc _ _ n

/-- Passes over a text find its calls again, wrap each of them once more, and leave the gaps alone. -/
theorem iterate_wrap (t : Text) :
    (outside 0 t.size (calls t)).map (fun span => t.slice? span.1 span.2) = (gaps t).map some ∧
    (∀ n, 0 < n → wrap^[n] t = weave (gaps t) ((calls t).map (Call.rewrapped n)) ∧
      (calls (wrap^[n] t)).length = (calls t).length ∧
      ∀ i c, (calls t)[i]? = some c → ∃ before after d, wrap^[n] t = before ++ (c.rewrapped n ++ after) ∧
        before = weave ((gaps t).take (i + 1)) (((calls t).take i).map (Call.rewrapped n)) ∧
        (calls (wrap^[n] t))[i]? = some d ∧ d.query = c.query ∧ d.args = nested n ++ c.args ∧
        d.text ++ closers n = c.rewrapped n ∧ d.start = Text.size before ∧
        d.stop + n = d.start + (c.rewrapped n).size) ∧
    (∀ n, (calls (wrap^[n] t)).map Call.query = (calls t).map Call.query) ∧
    (∀ n, 0 < n → (wrap^[n + 1] t).size = (wrap^[n] t).size + 14 * (calls t).length) ∧
    (calls t ≠ [] → Function.Injective fun n => wrap^[n] t) := by
  refine ⟨map_slice?_outside t, ?_, fun n => map_query_calls_iterate_wrap n t, ?_, injective_iterate_wrap⟩
  · intro n hn
    have hlen := congrArg List.length (map_query_calls_iterate_wrap n t)
    rw [List.length_map, List.length_map] at hlen
    exact ⟨iterate_wrap_eq_weave hn t, hlen, fun i c hc => exists_call_iterate_wrap hn hc⟩
  · intro n hn
    exact size_iterate_wrap_succ hn t

end ParamsWrap
