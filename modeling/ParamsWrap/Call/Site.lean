import ParamsWrap.Text.Utf8

/-!
# Call sites

A call site is `tx.exec(`, blanks, a query between quotes, a comma, and all that follows up to the
next closing parenthesis. Reading a site off the front of a text and printing it are inverse to each
other, so the site tells every character of the text that it was read from.
-/

namespace ParamsWrap

/-- The name of the function that is called. -/
def marker : Text := ['t', 'x', '.', 'e', 'x', 'e', 'c']

/-- The name of the function that the arguments are wrapped in. -/
def wrapper : Text := ['p', 'q', 'x', 'x', ':', ':', 'p', 'a', 'r', 'a', 'm', 's']

/-- A text that is not empty and holds no `stop`. -/
structure Field (stop : Char) where
  text : Text
  text_ne_nil : text ≠ []
  stop_not_mem : stop ∉ text
deriving DecidableEq

namespace Field

variable {stop : Char}

theorem stop_not_mem_takeWhile (stop : Char) (t : Text) : stop ∉ t.takeWhile (· != stop) := by
  intro h
  have := List.all_eq_true.mp (List.all_takeWhile (p := (· != stop)) (l := t)) stop h
  simp at this

/-- Reads the text before the first `stop`, and leaves what follows that `stop`. -/
def read? (stop : Char) (t : Text) : Option (Field stop × Text) :=
  match t.dropWhile (· != stop) with
  | [] => none
  | _ :: rest =>
    if h : t.takeWhile (· != stop) = [] then none
    else some (⟨t.takeWhile (· != stop), h, stop_not_mem_takeWhile stop t⟩, rest)

theorem ne_stop_of_mem (f : Field stop) : ∀ c ∈ f.text, (c != stop) = true := by
  intro c hc
  have : c ≠ stop := fun h => f.stop_not_mem (h ▸ hc)
  simpa using this

theorem read?_append (f : Field stop) (rest : Text) :
    read? stop (f.text ++ stop :: rest) = some (f, rest) := by
  have htake : (f.text ++ stop :: rest).takeWhile (· != stop) = f.text := by
    rw [List.takeWhile_append_of_pos f.ne_stop_of_mem]
    simp
  have hdrop : (f.text ++ stop :: rest).dropWhile (· != stop) = stop :: rest := by
    rw [List.dropWhile_append_of_pos f.ne_stop_of_mem]
    simp
  simp [read?, htake, hdrop, f.text_ne_nil]

theorem eq_append_of_read? {t rest : Text} {f : Field stop} (h : read? stop t = some (f, rest)) :
    t = f.text ++ stop :: rest := by
  unfold read? at h
  split at h
  · cases h
  · rename_i c u hdrop
    split at h
    · cases h
    · cases h
      have hc : (c != stop) = false := by
        have := List.head?_dropWhile_not (· != stop) t
        simpa [hdrop] using this
      have hstop : c = stop := by simpa using hc
      have hsplit := List.takeWhile_append_dropWhile (p := (· != stop)) (l := t)
      rw [hdrop, hstop] at hsplit
      exact hsplit.symm

/-- A field is read exactly off the texts that begin with it and a `stop`. -/
theorem read?_eq_some_iff {t rest : Text} {f : Field stop} :
    read? stop t = some (f, rest) ↔ t = f.text ++ stop :: rest :=
  ⟨eq_append_of_read?, fun h => h ▸ read?_append f rest⟩

end Field

/-- A call site: the blanks before the query, the query, and all between its comma and the next
closing parenthesis. -/
structure Site where
  lead : Blanks
  query : Field '"'
  inner : Field ')'
deriving DecidableEq

namespace Site

/-- What every site begins with. -/
def opening : Text := marker ++ ['(']

/-- The text of a site. -/
def text (s : Site) : Text :=
  opening ++ s.lead.text ++ '"' :: s.query.text ++ '"' :: ',' :: s.inner.text ++ [')']

/-- The arguments without the blanks before them. Of blanks alone the last one stays. -/
def args (s : Site) : Text :=
  match s.inner.text.dropWhile isBlank with
  | [] => s.inner.text.getLast?.toList
  | a => a

/-- The text that a site is replaced by. -/
def wrapped (s : Site) : Text :=
  opening ++ '"' :: s.query.text ++ '"' :: ',' :: ' ' :: wrapper ++ '(' :: s.args ++ [')', ')']

/-- Reads a site off the front of a text. -/
def read? (t : Text) : Option (Site × Text) := do
  let t ← opening.behind? t
  let u ← Text.behind? ['"'] (t.dropWhile isBlank)
  let (query, u) ← Field.read? '"' u
  let v ← Text.behind? [','] u
  let (inner, rest) ← Field.read? ')' v
  return (⟨Blanks.leading t, query, inner⟩, rest)

theorem read?_text_append (s : Site) (rest : Text) : read? (s.text ++ rest) = some (s, rest) := by
  have hopen : opening.behind? (s.text ++ rest) =
      some (s.lead.text ++ '"' :: (s.query.text ++ '"' :: (',' :: (s.inner.text ++ ')' :: rest)))) :=
    Text.behind?_eq_some_iff.mpr (by simp [text])
  simp [read?, hopen, Blanks.leading_append s.lead (c := '"') (by decide),
    Blanks.dropWhile_append s.lead (c := '"') (by decide), Text.behind?, Field.read?_append]

theorem eq_text_append_of_read? {t rest : Text} {s : Site} (h : read? t = some (s, rest)) :
    t = s.text ++ rest := by
  simp only [read?, Option.bind_eq_bind, Option.bind_eq_some_iff, Text.behind?_eq_some_iff,
    Prod.exists, Field.read?_eq_some_iff, Option.pure_def, Option.some.injEq, Prod.mk.injEq] at h
  obtain ⟨t, rfl, u, hu, query, _, rfl, v, rfl, inner, _, rfl, rfl, rfl⟩ := h
  have ht : t = (Blanks.leading t).text ++ t.dropWhile isBlank :=
    (List.takeWhile_append_dropWhile).symm
  rw [hu] at ht
  simpa [text] using ht

/-- A site is read exactly off the texts that begin with its text. -/
theorem read?_eq_some_iff {t rest : Text} {s : Site} :
    read? t = some (s, rest) ↔ t = s.text ++ rest :=
  ⟨eq_text_append_of_read?, fun h => h ▸ read?_text_append s rest⟩

theorem length_lt_of_read? {t rest : Text} {s : Site} (h : read? t = some (s, rest)) :
    rest.length < t.length := by
  rw [eq_text_append_of_read? h]
  simp [text, opening, marker]
  omega

end Site

end ParamsWrap
