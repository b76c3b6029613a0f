import ParamsWrap.Pattern.Call
import ParamsWrap.Proofs.Backtracking
import ParamsWrap.Proofs.CallParts

/-!
# Searching for the pattern of a call

At the front of a text the pattern of a call has a match exactly where a site can be read, and the
match that backtracking finds first has the parts of that site: its blanks, its query, its gap, its
arguments, and no blanks behind them. Searching a text for the pattern therefore finds its calls.
-/

namespace ParamsWrap

open Pattern

def Match.finding (m : Match CallPart) (start : Nat) : Finding :=
  ⟨start, start + m.taken.size, m.part .query, m.part .args, m.taken⟩

/-- The blanks and the closing parenthesis. From here the pattern is taken apart backwards. -/
def closingPattern : Pattern CallPart := .seq (.labelled .tail (.star (.one isBlank))) (.literal [')'])

def argsPattern : Pattern CallPart := .seq (.labelled .args (.plus (.one (allBut ')')))) closingPattern

def innerPattern : Pattern CallPart := .seq (.labelled .gap (.star (.one isBlank))) argsPattern

lemma callPattern_eq : callPattern = .seq (.literal Site.opening) (.seq (.labelled .lead (.star (.one isBlank)))
    (.seq (.literal ['"']) (.seq (.labelled .query (.plus (.one (allBut '"'))))
      (.seq (.literal ['"', ',']) innerPattern)))) := rfl

lemma all_allBut_iff {stop : Char} {t : Text} : t.all (allBut stop) ↔ stop ∉ t := by
  simp only [allBut, List.all_eq_true, decide_eq_true_eq]
  constructor
  · intro h hstop
    exact h stop hstop rfl
  · rintro h c hc rfl
    exact h hc

lemma stops_cons {accepts : Char → Bool} {c : Char} (h : accepts c = false) (t : Text) :
    Stops accepts (c :: t) := by
  intro d hd
  obtain rfl : c = d := by simpa using hd
  exact h

lemma first?_closingPattern (rest : Text) :
    closingPattern.first? (')' :: rest) = some ⟨[')'], [(.tail, [])], rest⟩ := by
  have hblanks : ([] : Text).all isBlank := rfl
  exact first?_seq_of_first? (first?_labelled_star_run CallPart.tail hblanks (stops_cons rfl _))
    (first?_literal [')'] rest)

lemma first?_argsPattern {args : Text} (hne : args ≠ []) (hargs : ')' ∉ args) (rest : Text) :
    argsPattern.first? (args ++ ')' :: rest) = some ⟨args ++ [')'], [(.args, args), (.tail, [])], rest⟩ :=
  first?_seq_of_first? (first?_labelled_plus_run CallPart.args (all_allBut_iff.mpr hargs) hne
    (stops_cons rfl _)) (first?_closingPattern rest)

lemma first?_argsPattern_stop (rest : Text) : argsPattern.first? (')' :: rest) = none := by
  have hnone : runs (allBut ')') (')' :: rest) = [([], ')' :: rest)] := runs_of_stops (stops_cons rfl rest)
  simp [argsPattern, first?_seq, matchings_labelled_plus_one, hnone]

/-- The longest gap that leaves an argument is found first. -/
lemma first?_innerPattern (s : Site) (rest : Text) :
    innerPattern.first? (s.inner.text ++ ')' :: rest) =
      some ⟨s.inner.text ++ [')'], [(.gap, s.gap), (.args, s.args), (.tail, [])], rest⟩ := by
  have hargs := first?_argsPattern s.args_ne_nil s.not_mem_args rest
  have hinner := s.gap_append_args
  obtain ⟨c, hc, hgap, hlast, _⟩ | ⟨c, more, hc, hgap, hfirst, _⟩ := s.gap_args_cases
  · -- All is blank: behind the longest run there is no argument, so its last blank is given back.
    obtain ⟨others, hothers⟩ := runs_concat hgap hc (stops_cons (by decide) rest : Stops isBlank (')' :: rest))
    rw [hlast] at hargs hinner
    rw [← hinner, hlast, innerPattern, first?_seq, matchings_labelled_star_one, List.append_assoc]
    simp only [List.singleton_append] at hargs ⊢
    rw [hothers]
    simp [ofLabelledRun, first?_argsPattern_stop, hargs, Match.andThen]
  · have hstops : Stops isBlank (s.args ++ ')' :: rest) := by
      rw [hfirst]
      exact stops_cons hc _
    rw [← hinner, List.append_assoc]
    have h := first?_seq_of_first? (first?_labelled_star_run CallPart.gap hgap hstops) hargs
    simpa [innerPattern, ofLabelledRun, Match.andThen] using h

/-- The match of the pattern that takes a site and leaves `rest`. -/
def Site.toMatch (s : Site) (rest : Text) : Match CallPart :=
  ⟨s.text, [(.lead, s.lead.text), (.query, s.query.text), (.gap, s.gap), (.args, s.args), (.tail, [])], rest⟩

lemma first?_text_append (s : Site) (rest : Text) :
    callPattern.first? (s.text ++ rest) = some (s.toMatch rest) := by
  have hinner := first?_seq_of_first? (first?_literal ['"', ','] (s.inner.text ++ ')' :: rest))
    (first?_innerPattern s rest)
  have hquery := first?_seq_of_first? (first?_labelled_plus_run CallPart.query
    (all_allBut_iff.mpr s.query.stop_not_mem) s.query.text_ne_nil (stops_cons rfl _)) hinner
  have hlead := first?_seq_of_first? (first?_labelled_star_run CallPart.lead s.lead.all_blank
    (stops_cons (by decide) _)) (first?_seq_of_first? (first?_literal ['"'] _) hquery)
  have hall := first?_seq_of_first? (first?_literal Site.opening _) hlead
  simpa [callPattern_eq, Site.text_eq, Site.toMatch, ofLabelledRun, Match.andThen] using hall

lemma mem_matchings_closingPattern {t : Text} {m : Match CallPart} :
    m ∈ closingPattern.matchings t ↔ ∃ tail rest, t = tail ++ ')' :: rest ∧ tail.all isBlank ∧
      m = ⟨tail ++ [')'], [(.tail, tail)], rest⟩ := by
  rw [closingPattern, mem_matchings_star_seq]
  constructor
  · rintro ⟨tail, _, n, htail, rfl, hn, rfl⟩
    obtain ⟨rest, rfl, rfl⟩ := mem_matchings_literal.mp hn
    exact ⟨tail, rest, rfl, htail, rfl⟩
  · rintro ⟨tail, rest, rfl, htail, rfl⟩
    exact ⟨tail, _, ⟨[')'], [], rest⟩, htail, rfl, mem_matchings_literal.mpr ⟨rest, rfl, rfl⟩, rfl⟩

lemma mem_matchings_argsPattern {t : Text} {m : Match CallPart} :
    m ∈ argsPattern.matchings t ↔ ∃ args tail rest, t = args ++ (tail ++ ')' :: rest) ∧ args ≠ [] ∧
      ')' ∉ args ∧ tail.all isBlank ∧ m = ⟨args ++ (tail ++ [')']), [(.args, args), (.tail, tail)], rest⟩ := by
  rw [argsPattern, mem_matchings_plus_seq]
  constructor
  · rintro ⟨args, _, n, hne, hargs, rfl, hn, rfl⟩
    obtain ⟨tail, rest, rfl, htail, rfl⟩ := mem_matchings_closingPattern.mp hn
    exact ⟨args, tail, rest, rfl, hne, all_allBut_iff.mp hargs, htail, rfl⟩
  · rintro ⟨args, tail, rest, rfl, hne, hargs, htail, rfl⟩
    have hn := mem_matchings_closingPattern.mpr ⟨tail, rest, rfl, htail, rfl⟩
    exact ⟨args, _, _, hne, all_allBut_iff.mpr hargs, rfl, hn, rfl⟩

lemma mem_matchings_innerPattern {t : Text} {m : Match CallPart} :
    m ∈ innerPattern.matchings t ↔ ∃ gap args tail rest, t = gap ++ (args ++ (tail ++ ')' :: rest)) ∧
      gap.all isBlank ∧ args ≠ [] ∧ ')' ∉ args ∧ tail.all isBlank ∧
      m = ⟨gap ++ (args ++ (tail ++ [')'])), [(.gap, gap), (.args, args), (.tail, tail)], rest⟩ := by
  rw [innerPattern, mem_matchings_star_seq]
  constructor
  · rintro ⟨gap, _, n, hgap, rfl, hn, rfl⟩
    obtain ⟨args, tail, rest, rfl, hne, hargs, htail, rfl⟩ := mem_matchings_argsPattern.mp hn
    exact ⟨gap, args, tail, rest, rfl, hgap, hne, hargs, htail, rfl⟩
  · rintro ⟨gap, args, tail, rest, rfl, hgap, hne, hargs, htail, rfl⟩
    have hn := mem_matchings_argsPattern.mpr ⟨args, tail, rest, rfl, hne, hargs, htail, rfl⟩
    exact ⟨gap, _, _, hgap, rfl, hn, rfl⟩

/-- The matches at the front of a text are the ways to split what a site there holds behind its comma. -/
theorem mem_matchings_callPattern {t : Text} {m : Match CallPart} :
    m ∈ callPattern.matchings t ↔ ∃ (s : Site) (gap args tail rest : Text), t = s.text ++ rest ∧
      s.inner.text = gap ++ (args ++ tail) ∧ gap.all isBlank ∧ args ≠ [] ∧ tail.all isBlank ∧
      m = ⟨s.text, [(.lead, s.lead.text), (.query, s.query.text), (.gap, gap), (.args, args), (.tail, tail)],
        rest⟩ := by
  simp only [callPattern_eq, mem_matchings_literal_seq, mem_matchings_star_seq, mem_matchings_plus_seq,
    mem_matchings_innerPattern]
  constructor
  · rintro ⟨_, _, rfl, ⟨lead, _, _, hlead, rfl, ⟨_, _, rfl, ⟨query, _, _, hne, hquery, rfl, ⟨_, _, rfl, ⟨gap,
      args, tail, rest, rfl, hgap, hargs, hstop, htail, rfl⟩, rfl⟩, rfl⟩, rfl⟩, rfl⟩, rfl⟩
    have hinner : ')' ∉ gap ++ (args ++ tail) := by
      simp only [List.mem_append, not_or]
      exact ⟨not_mem_of_all_isBlank hgap (by decide), hstop, not_mem_of_all_isBlank htail (by decide)⟩
    let s : Site := ⟨⟨lead, hlead⟩, ⟨query, hne, all_allBut_iff.mp hquery⟩,
      ⟨gap ++ (args ++ tail), by simp [hargs], hinner⟩⟩
    refine ⟨s, gap, args, tail, rest, ?_, rfl, hgap, hargs, htail, ?_⟩
    · simp [s, Site.text_eq]
    · simp [s, Site.text_eq]
  · rintro ⟨s, gap, args, tail, rest, rfl, hinner, hgap, hargs, htail, rfl⟩
    have hstop : ')' ∉ args := by
      intro h
      apply s.inner.stop_not_mem
      simp [hinner, h]
    have hquery := all_allBut_iff.mpr s.query.stop_not_mem
    refine ⟨_, _, ?_, ⟨s.lead.text, _, _, s.lead.all_blank, rfl, ⟨_, _, rfl, ⟨s.query.text, _, _,
      s.query.text_ne_nil, hquery, rfl, ⟨_, _, rfl, ⟨gap, args, tail, rest, rfl, hgap, hargs, hstop, htail, rfl⟩,
      rfl⟩, rfl⟩, rfl⟩, rfl⟩, ?_⟩
    · simp [Site.text_eq, hinner]
    · simp [Site.text_eq, hinner]

/-- The pattern has a match exactly where a site can be read, and its first match tells the site. -/
theorem first?_callPattern (t : Text) :
    callPattern.first? t = (Site.read? t).map fun found => found.1.toMatch found.2 := by
  cases hread : Site.read? t with
  | some found =>
    rw [Site.eq_text_append_of_read? hread, first?_text_append]
    rfl
  | none =>
    rw [first?, Option.map_none, List.head?_eq_none_iff, List.eq_nil_iff_forall_not_mem]
    intro m hm
    obtain ⟨s, _, _, _, rest, ht, _⟩ := mem_matchings_callPattern.mp hm
    rw [ht, Site.read?_text_append] at hread
    cases hread

lemma finding_toMatch (s : Site) (rest : Text) (start : Nat) :
    (s.toMatch rest).finding start = (Call.mk start s).finding := rfl

/-- From any position on, the search goes in step with the cutting of the text. -/
lemma search_callPattern (start : Nat) (t : Text) :
    (callPattern.search start t).map (fun found => found.2.finding found.1) =
      (locate start (pieces t)).map Call.finding := by
  fun_induction Pattern.search callPattern start t with
  | case1 start => simp [locate]
  | case2 start c rest hnone ih =>
    rw [first?_callPattern, Option.map_eq_none_iff] at hnone
    rw [pieces_cons_of_read?_eq_none hnone, locate]
    exact ih
  | case3 start c rest m hsome hle ih =>
    rw [first?_callPattern, Option.map_eq_some_iff] at hsome
    obtain ⟨⟨s, after⟩, hread, rfl⟩ := hsome
    rw [pieces_of_read? hread, locate, List.map_cons, List.map_cons, finding_toMatch]
    congr 1
  | case4 start c rest m hsome hle ih =>
    -- A match of the pattern takes something, so it is never passed over.
    rw [first?_callPattern, Option.map_eq_some_iff] at hsome
    obtain ⟨⟨s, after⟩, hread, rfl⟩ := hsome
    have hlt := Site.length_lt_of_read? hread
    exact absurd (Nat.le_of_lt_succ hlt) hle

/-- Searching a text for the pattern finds its calls: the same spans, the same queries, arguments and texts. -/
theorem calls_eq_search (t : Text) :
    (calls t).map Call.finding = (callPattern.search 0 t).map fun found => found.2.finding found.1 :=
  (search_callPattern 0 t).symm

end ParamsWrap
