import ParamsWrap.Proofs.Weave

/-!
# Splicing the wrapped calls into a text

The spans of the calls are ranges of bytes, one behind the other, and the gaps are the slices outside of
them. Replacing the calls by their wrapped forms from the last to the first, each at the span that it has in
the text, wraps the text.
-/

namespace ParamsWrap

/-- The spans outside of calls, from `start` on and up to `stop`. -/
def outside (start stop : Nat) : List Call → List (Nat × Nat)
  | [] => [(start, stop)]
  | c :: rest => (start, c.start) :: outside c.stop stop rest

lemma slice?_outside_locate {t a b : Text} {ps : List Piece} (ht : t = a ++ (b ++ ps.flatMap Piece.text)) :
    (outside a.size t.size (locate (a.size + b.size) ps)).map (fun span => t.slice? span.1 span.2) =
      ((gapsOf ps).modifyHead (b ++ ·)).map some := by
  -- Of the text before the pieces, `a` ends with a call, and `b` is what was passed over since.
  induction ps generalizing a b with
  | nil =>
    have hsize : t.size = a.size + b.size := by simp [ht]
    have hslice := Text.slice?_append a b []
    simp only [List.flatMap_nil] at ht
    rw [hsize, locate, outside, List.map_singleton, ht, hslice]
    simp [gapsOf]
  | cons p ps ih =>
    cases p with
    | char c =>
      have hb : a.size + b.size + c.utf8Size = a.size + Text.size (b ++ [c]) := by simp [Nat.add_assoc]
      rw [locate, hb, ih (by simp [ht, Piece.text]), gapsOf, List.modifyHead_modifyHead]
      simp [Function.comp_def]
    | site s =>
      have hend : a.size + b.size + s.text.size = Text.size (a ++ (b ++ s.text)) := by simp [Nat.add_assoc]
      have hrest := ih (a := a ++ (b ++ s.text)) (b := []) (by simp [ht, Piece.text])
      have hslice : t.slice? a.size (a.size + b.size) = some b := by
        rw [ht]
        exact Text.slice?_append a b _
      rw [Text.size_nil, Nat.add_zero, modifyHead_nil_append] at hrest
      rw [locate, outside, List.map_cons, hslice, Call.stop, Call.text, hend, hrest]
      simp [gapsOf]

/-- The gaps of a text are its slices outside of the calls. -/
theorem map_slice?_outside (t : Text) :
    (outside 0 t.size (calls t)).map (fun span => t.slice? span.1 span.2) = (gaps t).map some := by
  have ht : t = [] ++ ([] ++ (pieces t).flatMap Piece.text) := (flatMap_text_pieces t).symm
  have h := slice?_outside_locate ht
  rw [modifyHead_nil_append] at h
  exact h

lemma foldrM_replaceRange?_locate (a : Text) (ps : List Piece) :
    (locate a.size ps).foldrM (fun c t => Text.replaceRange? t c.start c.stop c.wrapped)
      (a ++ ps.flatMap Piece.text) = some (a ++ ps.flatMap Piece.wrapped) := by
  induction ps generalizing a with
  | nil => rfl
  | cons p ps ih =>
    cases p with
    | char c =>
      have hrest := ih (a ++ [c])
      simpa [locate, Piece.text, Piece.wrapped] using hrest
    | site s =>
      -- The sites behind this one are replaced already, and it still has its span.
      have hrest := ih (a ++ s.text)
      rw [Text.size_append, List.append_assoc] at hrest
      have hreplace := Text.replaceRange?_append a s.text (ps.flatMap Piece.wrapped) s.wrapped
      rw [locate, List.foldrM_cons, List.flatMap_cons, List.flatMap_cons, Piece.text, hrest, List.append_assoc,
        Option.bind_eq_bind, Option.bind_some, Call.stop, Call.text]
      exact hreplace

/-- By how much wrapping lengthens a call. A call with many blanks may get shorter. -/
def Call.growth (c : Call) : Int := c.wrapped.size - c.text.size

lemma sum_growth (cs : List Call) : (cs.map Call.growth).sum =
    ((cs.map fun c => c.wrapped.size).sum : Nat) - ((cs.map fun c => c.text.size).sum : Nat) := by
  induction cs with
  | nil => rfl
  | cons c cs ih =>
    simp only [List.map_cons, List.sum_cons, ih, Call.growth]
    omega

lemma size_weave_calls {t : Text} {i : Nat} (h : i < (calls t).length) (f : Call → Text) :
    Text.size (weave ((gaps t).take (i + 1)) (((calls t).take i).map f)) =
      (((gaps t).take (i + 1)).map Text.size).sum + (((calls t).take i).map fun c => (f c).size).sum := by
  have hlen : ((gaps t).take (i + 1)).length = (((calls t).take i).map f).length + 1 := by
    simp only [List.length_take, List.length_map, length_gaps]
    omega
  rw [size_weave hlen, List.map_map]
  rfl

/-- In the wrapped text a call begins where it began in the text, moved by what the calls before it grew. -/
lemma size_weave_wrapped {t : Text} {i : Nat} {c : Call} (h : (calls t)[i]? = some c) :
    (Text.size (weave ((gaps t).take (i + 1)) (((calls t).take i).map Call.wrapped)) : Int) =
      c.start + (((calls t).take i).map Call.growth).sum := by
  obtain ⟨hi, _⟩ := List.getElem?_eq_some_iff.mp h
  have hstart := start_eq_size_weave h
  rw [size_weave_calls hi] at hstart
  rw [size_weave_calls hi, sum_growth]
  omega

lemma span_of_mem_calls {t : Text} {c : Call} (hc : c ∈ calls t) :
    c.start < c.stop ∧ c.stop ≤ t.size ∧ t.IsBoundary c.start ∧ t.IsBoundary c.stop ∧
      t.slice? c.start c.stop = some c.text ∧ (t.encode.take c.stop).drop c.start = c.text.encode := by
  obtain ⟨before, after, ht, hstart⟩ := exists_of_mem_calls hc
  have hstop : c.stop = before.size + c.text.size := by rw [Call.stop, hstart]
  have hfront : before.size + c.text.size = Text.size (before ++ c.text) := by rw [Text.size_append]
  refine ⟨c.start_lt_stop, ?_, ?_, ?_, ?_, ?_⟩
  · rw [hstop, ht, Text.size_append, Text.size_append]
    omega
  · rw [hstart, ht]
    exact Text.isBoundary_append before _
  · rw [hstop, hfront, ht, ← List.append_assoc]
    exact Text.isBoundary_append (before ++ c.text) after
  · rw [hstart, hstop, ht]
    exact Text.slice?_append before c.text after
  · rw [hstart, hstop, hfront, ht, ← List.append_assoc, Text.take_encode_append, Text.drop_encode_append]

lemma foldrM_replaceRange?_calls (t : Text) :
    (calls t).foldrM (fun c u => Text.replaceRange? u c.start c.stop c.wrapped) t = some (wrap t) := by
  have hsplice := foldrM_replaceRange?_locate [] (pieces t)
  rw [List.nil_append, flatMap_text_pieces] at hsplice
  exact hsplice

/-- The calls of a text are its parts at their spans, in order and apart, and wrapping splices their wrapped
forms into the gaps between these. -/
theorem wrap_eq_splice (t : Text) :
    (∀ c ∈ calls t, c.start < c.stop ∧ c.stop ≤ t.size ∧ t.IsBoundary c.start ∧ t.IsBoundary c.stop ∧
      t.slice? c.start c.stop = some c.text ∧ (t.encode.take c.stop).drop c.start = c.text.encode) ∧
    (calls t).Pairwise (fun c d => c.stop ≤ d.start) ∧
    (outside 0 t.size (calls t)).map (fun span => t.slice? span.1 span.2) = (gaps t).map some ∧
    weave (gaps t) ((calls t).map Call.text) = t ∧
    weave (gaps t) ((calls t).map Call.wrapped) = wrap t ∧
    (calls t).foldrM (fun c u => Text.replaceRange? u c.start c.stop c.wrapped) t = some (wrap t) ∧
    ∀ i c, (calls t)[i]? = some c → ∃ before after, wrap t = before ++ (c.wrapped ++ after) ∧
      before = weave ((gaps t).take (i + 1)) (((calls t).take i).map Call.wrapped) ∧
      (Text.size before : Int) = c.start + (((calls t).take i).map Call.growth).sum := by
  refine ⟨fun c hc => span_of_mem_calls hc, pairwise_locate 0 (pieces t), map_slice?_outside t, weave_text t,
    weave_wrapped t, foldrM_replaceRange?_calls t, ?_⟩
  intro i c hc
  obtain ⟨after, hafter⟩ := weave_calls_eq_append Call.wrapped hc
  rw [weave_wrapped] at hafter
  exact ⟨_, after, hafter, rfl, size_weave_wrapped hc⟩

end ParamsWrap
