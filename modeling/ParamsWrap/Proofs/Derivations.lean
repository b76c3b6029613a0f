import ParamsWrap.Proofs.PatternSearch

/-!
# The derivations of a call

A pattern derives a text when the text can be put together from what the parts of the pattern derive, whatever the
order in which backtracking would try them. The matches at the front of a text are its derivations there. Those of a
call that begin at one place take the same site, and differ only in how they split what stands between its comma and
its closing parenthesis.
-/

namespace ParamsWrap

namespace Pattern

variable {ι : Type}

/-- The pattern derives the text, with these labelled parts. Each round of a repetition takes something. -/
inductive Derives : Pattern ι → Text → List (ι × Text) → Prop
  | empty : Derives empty [] []
  | one {accepts : Char → Bool} {c : Char} (hc : accepts c) : Derives (one accepts) [c] []
  | seq {p q : Pattern ι} {s t : Text} {a b : List (ι × Text)} (hp : Derives p s a) (hq : Derives q t b) :
      Derives (seq p q) (s ++ t) (a ++ b)
  | stop {p : Pattern ι} : Derives (star p) [] []
  | again {p : Pattern ι} {s t : Text} {a b : List (ι × Text)} (hne : s ≠ []) (hp : Derives p s a)
      (hrest : Derives (star p) t b) : Derives (star p) (s ++ t) (a ++ b)
  | labelled {label : ι} {p : Pattern ι} {s : Text} {a : List (ι × Text)} (hp : Derives p s a) :
      Derives (labelled label p) s ((label, s) :: a)

/-- The match derives a piece of the text that begins at a byte. -/
def DerivesAt (p : Pattern ι) (t : Text) (start : Nat) (m : Match ι) : Prop :=
  ∃ before, t = before ++ (m.taken ++ m.rest) ∧ before.size = start ∧ p.Derives m.taken m.parts

lemma mem_matchings_star {p : Pattern ι} {t : Text} {m : Match ι} : m ∈ (star p).matchings t ↔
    (∃ a ∈ p.matchings t, a.taken ≠ [] ∧ ∃ b ∈ (star p).matchings a.rest, m = a.andThen b) ∨ m = .stay t := by
  simp only [matchings_star p t, List.mem_append, List.mem_singleton, List.mem_flatMap, List.mem_filter,
    decide_eq_true_eq, List.mem_map, and_assoc, eq_comm (b := m)]

lemma derives_star_of_mem {p : Pattern ι} (hp : ∀ t, ∀ m ∈ p.matchings t, p.Derives m.taken m.parts) (t : Text) :
    ∀ m ∈ (star p).matchings t, (star p).Derives m.taken m.parts := by
  induction hn : t.length using Nat.strongRecOn generalizing t with
  | ind n ih =>
    intro m hm
    obtain ⟨a, ha, hne, b, hb, rfl⟩ | rfl := mem_matchings_star.mp hm
    · have hlt := length_rest_lt ha hne
      exact .again hne (hp t a ha) (ih a.rest.length (by omega) a.rest rfl b hb)
    · exact .stop

lemma derives_of_mem_matchings (p : Pattern ι) (t : Text) : ∀ m ∈ p.matchings t, p.Derives m.taken m.parts := by
  induction p generalizing t with
  | empty =>
    intro m hm
    obtain rfl : m = .stay t := by simpa [matchings] using hm
    exact .empty
  | one accepts =>
    intro m hm
    cases t with
    | nil => simp [matchings] at hm
    | cons c rest =>
      by_cases hc : accepts c
      · obtain rfl : m = ⟨[c], [], rest⟩ := by simpa [matchings, hc] using hm
        exact .one hc
      · simp [matchings, hc] at hm
  | seq p q ihp ihq =>
    intro m hm
    obtain ⟨a, ha, b, hb, rfl⟩ := mem_matchings_seq.mp hm
    exact .seq (ihp t a ha) (ihq a.rest b hb)
  | star p ih => exact derives_star_of_mem ih t
  | labelled label p ih =>
    intro m hm
    simp only [matchings, List.mem_map] at hm
    obtain ⟨a, ha, rfl⟩ := hm
    exact .labelled (ih t a ha)

lemma Derives.mem_matchings {p : Pattern ι} {s : Text} {parts : List (ι × Text)} (h : p.Derives s parts)
    (rest : Text) : ⟨s, parts, rest⟩ ∈ p.matchings (s ++ rest) := by
  induction h generalizing rest with
  | empty => simp [matchings, Match.stay]
  | one hc => simp [matchings, hc]
  | @seq p q s t a b _ _ ihp ihq =>
    rw [List.append_assoc]
    exact mem_matchings_seq.mpr ⟨_, ihp (t ++ rest), _, ihq rest, rfl⟩
  | stop => exact mem_matchings_star.mpr (.inr rfl)
  | @again p s t a b hne _ _ ihp ihrest =>
    rw [List.append_assoc]
    exact mem_matchings_star.mpr (.inl ⟨_, ihp (t ++ rest), hne, _, ihrest rest, rfl⟩)
  | labelled _ ih => exact List.mem_map.mpr ⟨_, ih rest, rfl⟩

/-- Backtracking goes through all derivations at the front of a text. -/
theorem mem_matchings_iff {p : Pattern ι} {t : Text} {m : Match ι} :
    m ∈ p.matchings t ↔ t = m.taken ++ m.rest ∧ p.Derives m.taken m.parts := by
  constructor
  · intro hm
    exact ⟨(taken_append_rest p t m hm).symm, derives_of_mem_matchings p t m hm⟩
  · rintro ⟨rfl, h⟩
    exact h.mem_matchings m.rest

lemma derivesAt_iff {p : Pattern ι} {t : Text} {start : Nat} {m : Match ι} :
    p.DerivesAt t start m ↔ ∃ before after, t = before ++ after ∧ before.size = start ∧ m ∈ p.matchings after := by
  constructor
  · rintro ⟨before, rfl, hsize, h⟩
    exact ⟨before, _, rfl, hsize, mem_matchings_iff.mpr ⟨rfl, h⟩⟩
  · rintro ⟨before, after, rfl, hsize, hm⟩
    obtain ⟨rfl, h⟩ := mem_matchings_iff.mp hm
    exact ⟨before, rfl, hsize, h⟩

end Pattern

/-! ### The derivations of a call -/

namespace Site

/-- What stands before the comma of a site, and the comma. -/
def upToComma (lead : Blanks) (query : Field '"') : Text :=
  opening ++ (lead.text ++ '"' :: (query.text ++ ['"', ',']))

/-- A site could begin at the byte as far as its comma, and this stands behind the comma. -/
def OpensAt (t : Text) (p : Nat) (after : Text) : Prop :=
  ∃ before lead query, t = before ++ (upToComma lead query ++ after) ∧ before.size = p

/-- What stands behind the comma of the site is split into blanks, arguments, and blanks. -/
structure IsSplit (s : Site) (gap args tail : Text) : Prop where
  inner_eq : s.inner.text = gap ++ (args ++ tail)
  all_gap : gap.all isBlank
  args_ne_nil : args ≠ []
  all_tail : tail.all isBlank

/-- The match that takes the site, with these parts behind its comma. -/
def splitMatch (s : Site) (gap args tail rest : Text) : Match CallPart :=
  ⟨s.text, [(.lead, s.lead.text), (.query, s.query.text), (.gap, gap), (.args, args), (.tail, tail)], rest⟩

lemma text_append_eq (s : Site) (rest : Text) :
    s.text ++ rest = upToComma s.lead s.query ++ (s.inner.text ++ ')' :: rest) := by
  simp [text, upToComma]

lemma upToComma_append_inj {lead lead' : Blanks} {query query' : Field '"'} {after after' : Text}
    (h : upToComma lead query ++ after = upToComma lead' query' ++ after') : after = after' := by
  simp only [upToComma, List.append_assoc, List.cons_append, List.nil_append, List.append_cancel_left_eq] at h
  have hlead := Blanks.leading_append lead (c := '"') (by decide) (query.text ++ '"' :: ',' :: after)
  rw [h, Blanks.leading_append lead' (by decide)] at hlead
  rw [hlead, List.append_cancel_left_eq, List.cons.injEq] at h
  have hquery := Field.read?_append query (',' :: after)
  rw [h.2, Field.read?_append, Option.some.injEq, Prod.mk.injEq, List.cons.injEq] at hquery
  exact hquery.2.2.symm

lemma OpensAt.unique {t after after' : Text} {p : Nat} (h : OpensAt t p after) (h' : OpensAt t p after') :
    after = after' := by
  obtain ⟨before, lead, query, rfl, rfl⟩ := h
  obtain ⟨before', lead', query', ht, hsize⟩ := h'
  exact upToComma_append_inj (Text.append_inj_of_size_eq ht hsize.symm).2

/-- All is blank or the arguments begin behind the blanks. -/
lemma args_eq_ite (s : Site) : s.args = if s.inner.text.all isBlank then s.inner.text.getLast?.toList
    else s.inner.text.dropWhile isBlank := by
  have hall : s.inner.text.all isBlank ↔ s.inner.text.dropWhile isBlank = [] := by
    rw [List.all_eq_true, List.dropWhile_eq_nil_iff]
  split
  · rename_i h
    simp [args, hall.mp h]
  · rename_i h
    rw [hall] at h
    unfold args
    split
    · contradiction
    · rfl

lemma isSplit_gap_args (s : Site) : s.IsSplit s.gap s.args [] where
  inner_eq := by rw [List.append_nil, gap_append_args]
  all_gap := s.all_gap
  args_ne_nil := s.args_ne_nil
  all_tail := rfl

/-- No run of blanks that leaves an argument is longer than the gap. -/
lemma IsSplit.isPrefix_gap {s : Site} {gap args tail : Text} (h : s.IsSplit gap args tail) : gap <+: s.gap := by
  have hmore : args ++ tail ≠ [] := by simp [h.args_ne_nil]
  rcases List.append_eq_append_iff.mp (s.gap_append_args.trans h.inner_eq) with
    ⟨between, hlong, hargs⟩ | ⟨between, hshort, _⟩
  · cases between with
    | nil => rw [hlong, List.append_nil]
    | cons d between =>
      obtain ⟨c, _, _, hlast, _⟩ | ⟨c, rest, hc, _, hfirst, _⟩ := s.gap_args_cases
      · -- The arguments are one blank, and the longer run would take it.
        rw [hlast, List.cons_append, List.cons.injEq] at hargs
        exact absurd (List.append_eq_nil_iff.mp hargs.2.symm).2 hmore
      · rw [hfirst, List.cons_append, List.cons.injEq] at hargs
        have hblank := List.all_eq_true.mp h.all_gap c (by simp [hlong, hargs.1])
        rw [hc] at hblank
        cases hblank
  · exact ⟨between, hshort.symm⟩

/-- Behind the comma a site takes no more than some argument and a closing parenthesis. -/
lemma OpensAt.exists_site {t after : Text} {p : Nat} (h : OpensAt t p after) (hargs : ∀ rest, after ≠ ')' :: rest)
    (hclose : ')' ∈ after) :
    ∃ (before : Text) (s : Site) (rest : Text), t = before ++ (s.text ++ rest) ∧ before.size = p := by
  obtain ⟨before, lead, query, rfl, rfl⟩ := h
  obtain ⟨inner, rest, rfl, hstop⟩ := List.eq_append_cons_of_mem hclose
  have hinner : inner ≠ [] := by
    rintro rfl
    exact hargs rest rfl
  let s : Site := ⟨lead, query, inner, hinner, hstop⟩
  exact ⟨before, s, rest, by rw [s.text_append_eq], rfl⟩

end Site

lemma derivesAt_text_append_iff {before rest : Text} {s : Site} {m : Match CallPart} :
    callPattern.DerivesAt (before ++ (s.text ++ rest)) before.size m ↔
      ∃ gap args tail, s.IsSplit gap args tail ∧ m = s.splitMatch gap args tail rest := by
  rw [Pattern.derivesAt_iff]
  constructor
  · rintro ⟨before', after, ht, hsize, hm⟩
    obtain ⟨s', gap, args, tail, rest', hafter, hinner, hgap, hargs, htail, rfl⟩ := mem_matchings_callPattern.mp hm
    rw [hafter] at ht
    obtain ⟨rfl, rfl⟩ := Site.text_append_inj (Text.append_inj_of_size_eq ht hsize.symm).2
    exact ⟨gap, args, tail, ⟨hinner, hgap, hargs, htail⟩, rfl⟩
  · rintro ⟨gap, args, tail, ⟨hinner, hgap, hargs, htail⟩, rfl⟩
    exact ⟨before, _, rfl, rfl, mem_matchings_callPattern.mpr
      ⟨s, gap, args, tail, rest, rfl, hinner, hgap, hargs, htail, rfl⟩⟩

lemma exists_site_of_derivesAt {t : Text} {p : Nat} {m : Match CallPart} (h : callPattern.DerivesAt t p m) :
    ∃ (before : Text) (s : Site) (rest : Text), t = before ++ (s.text ++ rest) ∧ before.size = p := by
  obtain ⟨before, after, rfl, hsize, hm⟩ := Pattern.derivesAt_iff.mp h
  obtain ⟨s, _, _, _, rest, rfl, _⟩ := mem_matchings_callPattern.mp hm
  exact ⟨before, s, rest, rfl, hsize⟩

lemma not_derivesAt_callPattern_iff {t : Text} {p : Nat} : (∀ m, ¬ callPattern.DerivesAt t p m) ↔
    (∀ after, ¬ Site.OpensAt t p after) ∨ (∃ after, Site.OpensAt t p (')' :: after)) ∨
      ∃ after, Site.OpensAt t p after ∧ ')' ∉ after := by
  constructor
  · intro hnone
    by_cases hopens : ∃ after, Site.OpensAt t p after
    · obtain ⟨after, hafter⟩ := hopens
      right
      by_contra! hrest
      have hargs : ∀ rest, after ≠ ')' :: rest := by
        rintro rest rfl
        exact hrest.1 rest hafter
      obtain ⟨before, s, rest, rfl, rfl⟩ := hafter.exists_site hargs (hrest.2 after hafter)
      exact hnone _ (derivesAt_text_append_iff.mpr ⟨_, _, _, s.isSplit_gap_args, rfl⟩)
    · exact .inl (not_exists.mp hopens)
  · intro hbroken m hm
    obtain ⟨before, s, rest, rfl, rfl⟩ := exists_site_of_derivesAt hm
    have hopens : Site.OpensAt (before ++ (s.text ++ rest)) before.size (s.inner.text ++ ')' :: rest) :=
      ⟨before, s.lead, s.query, by rw [s.text_append_eq], rfl⟩
    rcases hbroken with hclosed | ⟨after, hempty⟩ | ⟨after, hafter, hclose⟩
    · exact hclosed _ hopens
    · have hafter := hopens.unique hempty
      obtain ⟨c, inner, hinner⟩ := List.exists_cons_of_ne_nil s.inner.text_ne_nil
      rw [hinner, List.cons_append, List.cons.injEq] at hafter
      exact s.inner.stop_not_mem (by simp [hinner, hafter.1])
    · rw [← hopens.unique hafter] at hclose
      simp at hclose

/-- All derivations of a call that begin at one byte end behind the first closing parenthesis after the comma, with the
same blanks and the same query before it, and are all ways to split what stands between. Backtracking finds the one with
the longest run of blanks in front of the arguments and none behind them, which is how the call is read. There is no
derivation exactly where the text does not go on as far as a comma, or no argument or no closing parenthesis follows. -/
theorem derivations_of_callPattern (t : Text) (p : Nat) :
    (∀ m m', callPattern.DerivesAt t p m → callPattern.DerivesAt t p m' →
      m.taken = m'.taken ∧ m.rest = m'.rest ∧ m.part .lead = m'.part .lead ∧ m.part .query = m'.part .query ∧
      m.part .gap ++ (m.part .args ++ m.part .tail) = m'.part .gap ++ (m'.part .args ++ m'.part .tail)) ∧
    (∀ m, callPattern.DerivesAt t p m → ∃ (before : Text) (s : Site) (rest : Text),
      t = before ++ (s.text ++ rest) ∧ before.size = p ∧
      s.text = Site.upToComma s.lead s.query ++ (s.inner.text ++ [')']) ∧ ')' ∉ s.inner.text ∧
      (∀ m', callPattern.DerivesAt t p m' ↔
        ∃ gap args tail, s.IsSplit gap args tail ∧ m' = s.splitMatch gap args tail rest) ∧
      callPattern.first? (s.text ++ rest) = some (s.splitMatch s.gap s.args [] rest) ∧
      s.IsSplit s.gap s.args [] ∧ (∀ gap args tail, s.IsSplit gap args tail → gap <+: s.gap) ∧
      (s.args = if s.inner.text.all isBlank then s.inner.text.getLast?.toList
        else s.inner.text.dropWhile isBlank) ∧
      Site.read? (s.text ++ rest) = some (s, rest)) ∧
    ((∀ m, ¬ callPattern.DerivesAt t p m) ↔
      (∀ after, ¬ Site.OpensAt t p after) ∨ (∃ after, Site.OpensAt t p (')' :: after)) ∨
        ∃ after, Site.OpensAt t p after ∧ ')' ∉ after) := by
  refine ⟨?_, ?_, not_derivesAt_callPattern_iff⟩
  · intro m m' hm hm'
    obtain ⟨before, s, rest, rfl, rfl⟩ := exists_site_of_derivesAt hm
    obtain ⟨gap, args, tail, hsplit, rfl⟩ := derivesAt_text_append_iff.mp hm
    obtain ⟨gap', args', tail', hsplit', rfl⟩ := derivesAt_text_append_iff.mp hm'
    exact ⟨rfl, rfl, rfl, rfl, hsplit.inner_eq.symm.trans hsplit'.inner_eq⟩
  · intro m hm
    obtain ⟨before, s, rest, rfl, rfl⟩ := exists_site_of_derivesAt hm
    refine ⟨before, s, rest, rfl, rfl, ?_, s.inner.stop_not_mem, fun m' => derivesAt_text_append_iff,
      first?_text_append s rest, s.isSplit_gap_args, fun _ _ _ => Site.IsSplit.isPrefix_gap, s.args_eq_ite,
      Site.read?_text_append s rest⟩
    simpa using s.text_append_eq []

/-- Two blanks behind the comma: either may be the argument, or both are, and backtracking takes the last one. -/
theorem derivations_of_callPattern_of_blanks :
    let s : Site := ⟨⟨[], rfl⟩, ⟨['q'], by decide, by decide⟩, ⟨[' ', ' '], by decide, by decide⟩⟩
    let t : Text := ['x'] ++ s.text
    callPattern.DerivesAt t 1 (s.splitMatch [] [' ', ' '] [] []) ∧
      callPattern.DerivesAt t 1 (s.splitMatch [] [' '] [' '] []) ∧
      callPattern.DerivesAt t 1 (s.splitMatch [' '] [' '] [] []) ∧
      callPattern.first? s.text = some (s.splitMatch [' '] [' '] [] []) := by
  intro s t
  have ht : t = ['x'] ++ (s.text ++ []) := by rw [List.append_nil]
  have hderives : ∀ gap args tail, s.IsSplit gap args tail →
      callPattern.DerivesAt t 1 (s.splitMatch gap args tail []) := by
    intro gap args tail hsplit
    rw [ht]
    exact derivesAt_text_append_iff.mpr ⟨gap, args, tail, hsplit, rfl⟩
  have hboth := hderives [] [' ', ' '] [] ⟨rfl, rfl, by decide, rfl⟩
  have hfront := hderives [] [' '] [' '] ⟨rfl, rfl, by decide, by decide⟩
  have hback := hderives [' '] [' '] [] ⟨rfl, by decide, by decide, rfl⟩
  obtain ⟨_, hfound, _⟩ := derivations_of_callPattern t 1
  obtain ⟨before, s', rest, ht', hsize, _, _, _, hfirst, _⟩ := hfound _ hback
  obtain ⟨rfl, rfl⟩ := Site.text_append_inj (Text.append_inj_of_size_eq (ht.symm.trans ht') hsize.symm).2
  rw [List.append_nil] at hfirst
  exact ⟨hboth, hfront, hback, hfirst⟩

end ParamsWrap
