import ParamsWrap.Proofs.Respacing

/-!
# What wrapping keeps

Of a text with calls, wrapping drops the blanks before the query and before the arguments of each call, and puts a
wrapper and a parenthesis around the arguments. All else of the text stays, in its order. Looked at without blanks,
the wrapped text is the text with a block behind the comma of each call and a parenthesis behind its arguments.
-/

namespace ParamsWrap

namespace Text

/-- The characters that are not blank. -/
def solid (t : Text) : Text := t.filter (!isBlank ·)

@[simp] lemma solid_append (s t : Text) : solid (s ++ t) = solid s ++ solid t := List.filter_append ..

lemma solid_of_all_isBlank {t : Text} (h : t.all isBlank) : solid t = [] := by
  rw [solid, List.filter_eq_nil_iff]
  intro c hc
  simpa using List.all_eq_true.mp h c hc

end Text

open Text

lemma solid_weave (gs xs : List Text) : solid (weave gs xs) = weave (gs.map solid) (xs.map solid) := by
  induction gs generalizing xs with
  | nil => rfl
  | cons g gs ih =>
    cases xs with
    | nil => rfl
    | cons x xs => simp only [weave, solid_append, ih, List.map_cons]

lemma weave_map_sublist {α : Type} {f g : α → Text} (h : ∀ a, (f a).Sublist (g a)) (gs : List Text) (as : List α) :
    (weave gs (as.map f)).Sublist (weave gs (as.map g)) := by
  induction as generalizing gs with
  | nil => exact List.Sublist.refl _
  | cons a as ih =>
    cases gs with
    | nil => exact List.Sublist.refl _
    | cons gap gs => exact ((h a).append (ih gs)).append_left gap

namespace Site

/-- The site up to its comma, without the blanks before the query. -/
def head (s : Site) : Text := opening ++ (['"'] ++ (s.query.text ++ ['"', ',']))

lemma spaced_nil (s : Site) : s.spaced [] [] = s.head ++ (s.args ++ [')']) := by
  simp [spaced, head]

lemma wrapped_eq_head (s : Site) :
    s.wrapped = s.head ++ ([' '] ++ (wrapper ++ ['('] ++ (s.args ++ [')'] ++ [')']))) := by
  simp [wrapped, head]

lemma spaced_nil_sublist_wrapped (s : Site) : (s.spaced [] []).Sublist s.wrapped := by
  have hargs : (s.args ++ [')']).Sublist (s.args ++ [')'] ++ [')']) := List.sublist_append_left ..
  rw [spaced_nil, wrapped_eq_head, ← List.append_assoc [' ']]
  exact (hargs.trans (List.sublist_append_right ..)).append_left s.head

lemma solid_text (s : Site) : solid s.text = solid s.head ++ (solid s.args ++ [')']) := by
  have hlead := solid_of_all_isBlank s.lead.all_blank
  have hgap := solid_of_all_isBlank s.all_gap
  have hend : solid [')'] = [')'] := by decide
  rw [text_eq, ← s.gap_append_args, head]
  simp only [solid_append, hlead, hgap, hend, List.nil_append, List.append_assoc]

lemma solid_wrapped (s : Site) :
    solid s.wrapped = solid s.head ++ (wrapper ++ ['('] ++ (solid s.args ++ [')'] ++ [')'])) := by
  have hspace : solid [' '] = [] := by decide
  have hwrapper : solid (wrapper ++ ['(']) = wrapper ++ ['('] := by decide
  have hend : solid [')'] = [')'] := by decide
  rw [wrapped_eq_head, solid_append, solid_append, hspace, solid_append, hwrapper]
  simp only [solid_append, hend, List.nil_append]

lemma solid_text_sublist_solid_wrapped (s : Site) : (solid s.text).Sublist (solid s.wrapped) := by
  have hargs : (solid s.args ++ [')']).Sublist (solid s.args ++ [')'] ++ [')']) := List.sublist_append_left ..
  rw [solid_text, solid_wrapped]
  exact (hargs.trans (List.sublist_append_right ..)).append_left _

lemma measure_solid_wrapped {m : Text → Nat} (hm : ∀ s t, m (s ++ t) = m s + m t) (s : Site) :
    m (solid s.wrapped) = m (solid s.text) + (m (wrapper ++ ['(']) + m [')']) := by
  rw [solid_text, solid_wrapped]
  simp only [hm]
  omega

end Site

def Call.head (c : Call) : Text := c.site.head

lemma solid_eq_weave (t : Text) : solid t = weave ((gaps t).map solid) ((calls t).map fun c => solid c.text) := by
  have hsolid := solid_weave (gaps t) ((calls t).map Call.text)
  rwa [weave_text, List.map_map] at hsolid

lemma solid_wrap_eq_weave (t : Text) :
    solid (wrap t) = weave ((gaps t).map solid) ((calls t).map fun c => solid c.wrapped) := by
  have hsolid := solid_weave (gaps t) ((calls t).map Call.wrapped)
  rwa [weave_wrapped, List.map_map] at hsolid

/-- What adds up over texts grows by the block and the parenthesis for each call. -/
lemma measure_solid_wrap {m : Text → Nat} (hm : ∀ s t, m (s ++ t) = m s + m t) (t : Text) :
    m (solid (wrap t)) = m (solid t) + (m (wrapper ++ ['(']) + m [')']) * (calls t).length := by
  have hlen : ((gaps t).map solid).length = (calls t).length + 1 := by rw [List.length_map, length_gaps]
  rw [solid_wrap_eq_weave, solid_eq_weave]
  exact weave_map_add hm (fun c => c.site.measure_solid_wrapped hm) hlen

/-- Without its blanks, a text is its wrapped text less a block behind the comma of each call and a parenthesis behind
its arguments. Of the text with its blanks, wrapping drops none but those before the query and before the arguments of
each call. -/
theorem solid_wrap (t : Text) :
    (outside 0 t.size (calls t)).map (fun span => t.slice? span.1 span.2) = (gaps t).map some ∧
    solid t = weave ((gaps t).map solid) ((calls t).map fun c => solid c.head ++ (solid c.args ++ [')'])) ∧
    solid (wrap t) = weave ((gaps t).map solid)
      ((calls t).map fun c => solid c.head ++ (wrapper ++ ['('] ++ (solid c.args ++ [')'] ++ [')']))) ∧
    (solid t).Sublist (solid (wrap t)) ∧
    (solid (wrap t)).length = (solid t).length + 14 * (calls t).length ∧
    (solid (wrap t)).count '"' = (solid t).count '"' ∧
    t = weave (gaps t) ((calls t).map fun c => c.spaced c.site.lead.text c.site.gap) ∧
    (∀ c ∈ calls t, c.site.lead.text.all isBlank ∧ c.site.gap.all isBlank) ∧
    (weave (gaps t) ((calls t).map fun c => c.spaced [] [])).Sublist (wrap t) := by
  have htext : (fun c : Call => solid c.text) = fun c => solid c.head ++ (solid c.args ++ [')']) :=
    funext fun c => c.site.solid_text
  have hwrapped : (fun c : Call => solid c.wrapped) =
      fun c => solid c.head ++ (wrapper ++ ['('] ++ (solid c.args ++ [')'] ++ [')'])) :=
    funext fun c => c.site.solid_wrapped
  have hspaced : Call.text = fun c : Call => c.spaced c.site.lead.text c.site.gap :=
    funext fun c => c.site.text_eq_spaced
  refine ⟨map_slice?_outside t, ?_, ?_, ?_, ?_, ?_, ?_, ?_, ?_⟩
  · rw [solid_eq_weave, htext]
  · rw [solid_wrap_eq_weave, hwrapped]
  · rw [solid_eq_weave t, solid_wrap_eq_weave t]
    exact weave_map_sublist (fun c => c.site.solid_text_sublist_solid_wrapped) _ _
  · exact measure_solid_wrap (fun _ _ => List.length_append) t
  · have hcount := measure_solid_wrap (m := List.count '"') (fun _ _ => List.count_append) t
    have hnone : (wrapper ++ ['(']).count '"' + [')'].count '"' = 0 := by decide
    rw [hcount, hnone, Nat.zero_mul, Nat.add_zero]
  · rw [← hspaced, weave_text]
  · exact fun c _ => ⟨c.site.lead.all_blank, c.site.all_gap⟩
  · rw [← weave_wrapped t]
    exact weave_map_sublist (fun c => c.site.spaced_nil_sublist_wrapped) _ _

end ParamsWrap
