import ParamsWrap.Pattern.Basic
import Mathlib.Data.List.Basic

/-!
# The order of backtracking

The matches of a repetition do not depend on the bound that ends its recursion: a repetition is one
more step followed by the repetition, or nothing. For a repeated class of characters this leaves the
runs at the front of a text, the longest first. The first match of a sequence is then found by trying
what follows behind each run in that order.
-/

namespace ParamsWrap

namespace Pattern

variable {ι : Type}

/-- All ways to split accepted characters off the front of a text, the longest run first. -/
def runs (accepts : Char → Bool) : Text → List (Text × Text)
  | [] => [([], [])]
  | c :: rest =>
    if accepts c then (runs accepts rest).map (Prod.map (c :: ·) id) ++ [([], c :: rest)]
    else [([], c :: rest)]

lemma mem_runs {accepts : Char → Bool} {t taken rest : Text} :
    (taken, rest) ∈ runs accepts t ↔ taken.all accepts ∧ t = taken ++ rest := by
  induction t generalizing taken with
  | nil =>
    simp only [runs, List.mem_singleton, Prod.mk.injEq, List.nil_eq_append_iff]
    constructor
    · rintro ⟨rfl, rfl⟩
      simp
    · rintro ⟨_, h⟩
      exact h
  | cons c t ih =>
    cases taken with
    | nil =>
      by_cases hc : accepts c
      · simp [runs, hc, eq_comm]
      · simp [runs, hc, eq_comm]
    | cons d taken =>
      by_cases hc : accepts c
      · have hstep : (d :: taken, rest) ∈ runs accepts (c :: t) ↔ c = d ∧ (taken, rest) ∈ runs accepts t := by
          simp [runs, hc]
          tauto
        rw [hstep, ih]
        constructor
        · rintro ⟨rfl, hall, rfl⟩
          simpa [hc] using hall
        · rintro ⟨hall, ht⟩
          obtain ⟨rfl, rfl⟩ := List.cons.inj ht
          simp only [List.all_cons, Bool.and_eq_true] at hall
          exact ⟨rfl, hall.2, rfl⟩
      · constructor
        · intro h
          simp [runs, hc] at h
        · rintro ⟨hall, ht⟩
          obtain ⟨rfl, rfl⟩ := List.cons.inj ht
          simp [hc] at hall

/-- No accepted character stands in front. -/
def Stops (accepts : Char → Bool) (t : Text) : Prop :=
  ∀ c, t.head? = some c → accepts c = false

lemma runs_of_stops {accepts : Char → Bool} {t : Text} (h : Stops accepts t) :
    runs accepts t = [([], t)] := by
  cases t with
  | nil => rfl
  | cons c t => simp [runs, h c rfl]

lemma head?_runs {accepts : Char → Bool} {run t : Text} (hrun : run.all accepts) (ht : Stops accepts t) :
    (runs accepts (run ++ t)).head? = some (run, t) := by
  induction run with
  | nil => simp [runs_of_stops ht]
  | cons c run ih =>
    simp only [List.all_cons, Bool.and_eq_true] at hrun
    simp [runs, hrun.1, ih hrun.2]

/-- The second run gives back the last of the accepted characters in front. -/
lemma runs_concat {accepts : Char → Bool} {run t : Text} {c : Char} (hrun : run.all accepts)
    (hc : accepts c) (ht : Stops accepts t) :
    ∃ others, runs accepts (run ++ c :: t) = (run ++ [c], t) :: (run, c :: t) :: others := by
  induction run with
  | nil => exact ⟨[], by simp [runs, hc, runs_of_stops ht]⟩
  | cons d run ih =>
    simp only [List.all_cons, Bool.and_eq_true] at hrun
    obtain ⟨others, hothers⟩ := ih hrun.2
    exact ⟨others.map (Prod.map (d :: ·) id) ++ [([], d :: (run ++ c :: t))],
      by simp [runs, hrun.1, hothers]⟩

lemma repetitions_taken_append_rest {step : Text → List (Match ι)}
    (hstep : ∀ t, ∀ m ∈ step t, m.taken ++ m.rest = t) (bound : Nat) (t : Text) :
    ∀ m ∈ repetitions step bound t, m.taken ++ m.rest = t := by
  induction bound generalizing t with
  | zero =>
    intro m hm
    obtain rfl : m = .stay t := by simpa [repetitions] using hm
    rfl
  | succ bound ih =>
    intro m hm
    simp only [repetitions, List.mem_append, List.mem_flatMap, List.mem_filter, List.mem_map,
      List.mem_singleton] at hm
    obtain ⟨a, ⟨ha, _⟩, b, hb, rfl⟩ | rfl := hm
    · rw [← hstep t a ha, ← ih a.rest b hb]
      simp [Match.andThen]
    · rfl

/-- A match splits the text. -/
theorem taken_append_rest (p : Pattern ι) (t : Text) : ∀ m ∈ p.matchings t, m.taken ++ m.rest = t := by
  induction p generalizing t with
  | empty =>
    intro m hm
    obtain rfl : m = .stay t := by simpa [matchings] using hm
    rfl
  | one accepts =>
    intro m hm
    cases t with
    | nil => simp [matchings] at hm
    | cons c rest =>
      by_cases hc : accepts c
      · obtain rfl : m = ⟨[c], [], rest⟩ := by simpa [matchings, hc] using hm
        rfl
      · simp [matchings, hc] at hm
  | seq p q ihp ihq =>
    intro m hm
    simp only [matchings, List.mem_flatMap, List.mem_map] at hm
    obtain ⟨a, ha, b, hb, rfl⟩ := hm
    rw [← ihp t a ha, ← ihq a.rest b hb]
    simp [Match.andThen]
  | star p ih => exact repetitions_taken_append_rest ih t.length t
  | labelled label p ih =>
    intro m hm
    simp only [matchings, List.mem_map] at hm
    obtain ⟨a, ha, rfl⟩ := hm
    exact ih t a ha

lemma length_rest_lt {p : Pattern ι} {t : Text} {m : Match ι} (hm : m ∈ p.matchings t)
    (htaken : m.taken ≠ []) : m.rest.length < t.length := by
  have hlen := congrArg List.length (taken_append_rest p t m hm)
  have hpos := List.length_pos_of_ne_nil htaken
  rw [List.length_append] at hlen
  omega

lemma repetitions_nil (p : Pattern ι) (bound : Nat) : repetitions p.matchings bound [] = [.stay []] := by
  cases bound with
  | zero => rfl
  | succ bound =>
    have hnone : (p.matchings []).filter (·.taken ≠ []) = [] := by
      rw [List.filter_eq_nil_iff]
      intro m hm
      have hm := List.append_eq_nil_iff.mp (taken_append_rest p [] m hm)
      simp [hm.1]
    rw [repetitions, hnone]
    rfl

/-- Bounds that the length of the text does not exceed are as good as each other. -/
lemma repetitions_congr (p : Pattern ι) {a b : Nat} {t : Text} (ha : t.length ≤ a) (hb : t.length ≤ b) :
    repetitions p.matchings a t = repetitions p.matchings b t := by
  induction a generalizing b t with
  | zero =>
    obtain rfl := List.eq_nil_of_length_eq_zero (Nat.le_zero.mp ha)
    rw [repetitions_nil, repetitions_nil]
  | succ a ih =>
    cases b with
    | zero =>
      obtain rfl := List.eq_nil_of_length_eq_zero (Nat.le_zero.mp hb)
      rw [repetitions_nil, repetitions_nil]
    | succ b =>
      rw [repetitions, repetitions]
      congr 1
      apply List.flatMap_congr
      intro m hm
      simp only [List.mem_filter, decide_eq_true_eq] at hm
      have hlt := length_rest_lt hm.1 hm.2
      rw [ih (b := b) (t := m.rest) (by omega) (by omega)]

/-- A repetition is one step that takes something and the repetition behind it, or else nothing. -/
theorem matchings_star (p : Pattern ι) (t : Text) :
    (star p).matchings t = ((p.matchings t).filter (·.taken ≠ [])).flatMap
      (fun m => ((star p).matchings m.rest).map m.andThen) ++ [.stay t] := by
  have hsucc : (star p).matchings t = repetitions p.matchings (t.length + 1) t :=
    repetitions_congr p (Nat.le_refl _) (Nat.le_succ _)
  rw [hsucc, repetitions]
  congr 1
  apply List.flatMap_congr
  intro m hm
  simp only [List.mem_filter, decide_eq_true_eq] at hm
  have hlt := length_rest_lt hm.1 hm.2
  rw [matchings, repetitions_congr p (b := m.rest.length) (by omega) (Nat.le_refl _)]

/-- A match of nothing but a run. -/
def ofRun (split : Text × Text) : Match ι := ⟨split.1, [], split.2⟩

lemma matchings_star_one (accepts : Char → Bool) (t : Text) :
    (star (one accepts) : Pattern ι).matchings t = (runs accepts t).map ofRun := by
  induction t with
  | nil => rfl
  | cons c t ih =>
    rw [matchings_star]
    by_cases hc : accepts c
    · have hone : ((one accepts : Pattern ι).matchings (c :: t)).filter (·.taken ≠ []) = [⟨[c], [], t⟩] := by
        simp [matchings, hc]
      rw [hone, List.flatMap_singleton, ih]
      simp [runs, hc, ofRun, Match.stay, Match.andThen, Function.comp_def, Prod.map]
    · simp [matchings, runs, hc, ofRun, Match.stay]

lemma matchings_plus_one (accepts : Char → Bool) (t : Text) :
    (plus (one accepts) : Pattern ι).matchings t =
      ((runs accepts t).filter (·.1 ≠ [])).map ofRun := by
  cases t with
  | nil => rfl
  | cons c t =>
    rw [plus, matchings]
    by_cases hc : accepts c
    · have hone : (one accepts : Pattern ι).matchings (c :: t) = [⟨[c], [], t⟩] := by
        simp [matchings, hc]
      rw [hone, List.flatMap_singleton, matchings_star_one]
      simp [runs, hc, ofRun, Match.andThen, Function.comp_def, Prod.map, List.filter_map]
    · simp [matchings, runs, hc]

lemma matchings_literal (l t : Text) :
    (literal l : Pattern ι).matchings t = ((l.behind? t).map fun rest => ⟨l, [], rest⟩).toList := by
  induction l generalizing t with
  | nil => rfl
  | cons c l ih =>
    cases t with
    | nil => rfl
    | cons d t =>
      by_cases h : d = c
      · cases hbehind : Text.behind? l t with
        | none => simp [literal, matchings, Text.behind?, h, ih, hbehind]
        | some rest => simp [literal, matchings, Text.behind?, h, ih, hbehind, Match.andThen]
      · simp [literal, matchings, Text.behind?, h, Ne.symm h]

lemma mem_matchings_seq {p q : Pattern ι} {t : Text} {m : Match ι} :
    m ∈ (seq p q).matchings t ↔ ∃ a ∈ p.matchings t, ∃ b ∈ q.matchings a.rest, m = a.andThen b := by
  simp [matchings, eq_comm]

lemma mem_matchings_literal {l t : Text} {m : Match ι} :
    m ∈ (literal l).matchings t ↔ ∃ rest, t = l ++ rest ∧ m = ⟨l, [], rest⟩ := by
  simp only [matchings_literal, Option.mem_toList, Option.map_eq_some_iff, Text.behind?_eq_some_iff]
  constructor
  · rintro ⟨rest, ht, rfl⟩
    exact ⟨rest, ht, rfl⟩
  · rintro ⟨rest, ht, rfl⟩
    exact ⟨rest, ht, rfl⟩

def ofLabelledRun (label : ι) (split : Text × Text) : Match ι := ⟨split.1, [(label, split.1)], split.2⟩

lemma matchings_labelled_star_one (label : ι) (accepts : Char → Bool) (t : Text) :
    (labelled label (star (one accepts))).matchings t = (runs accepts t).map (ofLabelledRun label) := by
  rw [matchings, matchings_star_one, List.map_map]
  rfl

lemma matchings_labelled_plus_one (label : ι) (accepts : Char → Bool) (t : Text) :
    (labelled label (plus (one accepts))).matchings t =
      ((runs accepts t).filter (·.1 ≠ [])).map (ofLabelledRun label) := by
  rw [matchings, matchings_plus_one, List.map_map]
  rfl

lemma mem_matchings_literal_seq {l t : Text} {q : Pattern ι} {m : Match ι} :
    m ∈ (seq (literal l) q).matchings t ↔
      ∃ rest n, t = l ++ rest ∧ n ∈ q.matchings rest ∧ m = ⟨l ++ n.taken, n.parts, n.rest⟩ := by
  simp only [mem_matchings_seq, mem_matchings_literal]
  constructor
  · rintro ⟨_, ⟨rest, ht, rfl⟩, n, hn, rfl⟩
    exact ⟨rest, n, ht, hn, rfl⟩
  · rintro ⟨rest, n, ht, hn, rfl⟩
    exact ⟨_, ⟨rest, ht, rfl⟩, n, hn, rfl⟩

lemma mem_matchings_star_seq {label : ι} {accepts : Char → Bool} {q : Pattern ι} {t : Text} {m : Match ι} :
    m ∈ (seq (labelled label (star (one accepts))) q).matchings t ↔
      ∃ run rest n, run.all accepts ∧ t = run ++ rest ∧ n ∈ q.matchings rest ∧
        m = ⟨run ++ n.taken, (label, run) :: n.parts, n.rest⟩ := by
  simp only [mem_matchings_seq, matchings_labelled_star_one, List.mem_map, Prod.exists, mem_runs]
  constructor
  · rintro ⟨_, ⟨run, rest, ⟨hall, ht⟩, rfl⟩, n, hn, rfl⟩
    exact ⟨run, rest, n, hall, ht, hn, rfl⟩
  · rintro ⟨run, rest, n, hall, ht, hn, rfl⟩
    exact ⟨_, ⟨run, rest, ⟨hall, ht⟩, rfl⟩, n, hn, rfl⟩

lemma mem_matchings_plus_seq {label : ι} {accepts : Char → Bool} {q : Pattern ι} {t : Text} {m : Match ι} :
    m ∈ (seq (labelled label (plus (one accepts))) q).matchings t ↔
      ∃ run rest n, run ≠ [] ∧ run.all accepts ∧ t = run ++ rest ∧ n ∈ q.matchings rest ∧
        m = ⟨run ++ n.taken, (label, run) :: n.parts, n.rest⟩ := by
  simp only [mem_matchings_seq, matchings_labelled_plus_one, List.mem_map, List.mem_filter, decide_eq_true_eq,
    Prod.exists, mem_runs]
  constructor
  · rintro ⟨_, ⟨run, rest, ⟨⟨hall, ht⟩, hrun⟩, rfl⟩, n, hn, rfl⟩
    exact ⟨run, rest, n, hrun, hall, ht, hn, rfl⟩
  · rintro ⟨run, rest, n, hrun, hall, ht, hn, rfl⟩
    exact ⟨_, ⟨run, rest, ⟨⟨hall, ht⟩, hrun⟩, rfl⟩, n, hn, rfl⟩

lemma first?_seq (p q : Pattern ι) (t : Text) :
    (seq p q).first? t = (p.matchings t).findSome? fun m => (q.first? m.rest).map m.andThen := by
  simp only [first?, matchings, List.head?_flatMap, List.head?_map]

lemma first?_literal (l t : Text) : (literal l : Pattern ι).first? (l ++ t) = some ⟨l, [], t⟩ := by
  have hbehind : Text.behind? l (l ++ t) = some t := Text.behind?_eq_some_iff.mpr rfl
  simp [first?, matchings_literal, hbehind]

/-- If what follows matches behind the first match of the first part, then these two are the first. -/
lemma first?_seq_of_first? {p q : Pattern ι} {t : Text} {m n : Match ι} (hp : p.first? t = some m)
    (hq : q.first? m.rest = some n) : (seq p q).first? t = some (m.andThen n) := by
  obtain ⟨others, hothers⟩ := List.head?_eq_some_iff.mp hp
  rw [first?_seq, hothers]
  simp [hq]

lemma first?_labelled_star_run (label : ι) {accepts : Char → Bool} {run t : Text} (hrun : run.all accepts)
    (ht : Stops accepts t) :
    (labelled label (star (one accepts))).first? (run ++ t) = some (ofLabelledRun label (run, t)) := by
  rw [first?, matchings_labelled_star_one, List.head?_map, head?_runs hrun ht]
  rfl

lemma first?_labelled_plus_run (label : ι) {accepts : Char → Bool} {run t : Text} (hrun : run.all accepts)
    (hne : run ≠ []) (ht : Stops accepts t) :
    (labelled label (plus (one accepts))).first? (run ++ t) = some (ofLabelledRun label (run, t)) := by
  obtain ⟨others, hothers⟩ := List.head?_eq_some_iff.mp (head?_runs hrun ht)
  rw [first?, matchings_labelled_plus_one, hothers]
  simp [hne]

end Pattern

end ParamsWrap
