import ParamsWrap.Call.Site
import Mathlib.Tactic.Lemma

/-!
# Reading a site character by character

An attempt to read a site goes through a text one character at a time, and all that it keeps is how
far it has come. A site can be read at the front of a text exactly when the attempt that starts there
is done at the end of it. What comes of an attempt that meets a site on its way depends on nothing
about that site but its query.
-/

namespace ParamsWrap

/-- How far an attempt to read a site has come: what is to come of the opening, the blanks before the
query, the query, its comma, and what stands between the comma and the closing parenthesis. -/
inductive Attempt where
  | opening (left : Text)
  | lead
  | query (begun : Bool)
  | comma
  | inner (begun : Bool)
  | done
  | failed
deriving DecidableEq

namespace Attempt

def start : Attempt := opening Site.opening

def next : Attempt → Char → Attempt
  | opening [], _ => failed
  | opening [d], c => if c = d then lead else failed
  | opening (d :: left), c => if c = d then opening left else failed
  | lead, c => if isBlank c then lead else if c = '"' then query false else failed
  | query begun, c => if c ≠ '"' then query true else if begun then comma else failed
  | comma, c => if c = ',' then inner false else failed
  | inner begun, c => if c ≠ ')' then inner true else if begun then done else failed
  | done, _ => done
  | failed, _ => failed

def run (a : Attempt) (t : Text) : Attempt := t.foldl next a

@[simp] lemma run_cons (a : Attempt) (c : Char) (t : Text) : a.run (c :: t) = (a.next c).run t := rfl

lemma run_append (a : Attempt) (s t : Text) : a.run (s ++ t) = (a.run s).run t := List.foldl_append

@[simp] lemma run_done (t : Text) : done.run t = done := by
  induction t with
  | nil => rfl
  | cons c t ih => exact ih

@[simp] lemma run_failed (t : Text) : failed.run t = failed := by
  induction t with
  | nil => rfl
  | cons c t ih => exact ih

/-! ### The stages of a site -/

/-- The stage reads a field up to `stop`, and goes on as `after` behind it. -/
structure ReadsField (stage : Bool → Attempt) (stop : Char) (after : Attempt) : Prop where
  next_other : ∀ begun c, c ≠ stop → (stage begun).next c = stage true
  next_stop : (stage true).next stop = after
  next_stop_empty : (stage false).next stop = failed
  ne_done : ∀ begun, stage begun ≠ done

lemma readsField_query : ReadsField query '"' comma where
  next_other begun c h := by simp [next, h]
  next_stop := rfl
  next_stop_empty := rfl
  ne_done begun h := by cases h

lemma readsField_inner : ReadsField inner ')' done where
  next_other begun c h := by simp [next, h]
  next_stop := rfl
  next_stop_empty := rfl
  ne_done begun h := by cases h

section Field

variable {stage : Bool → Attempt} {stop : Char} {after : Attempt}

lemma ReadsField.run_begun (h : ReadsField stage stop after) {f : Text} (hf : stop ∉ f) (t : Text) :
    (stage true).run (f ++ t) = (stage true).run t := by
  induction f with
  | nil => rfl
  | cons c f ih =>
    rw [List.mem_cons, not_or] at hf
    rw [List.cons_append, run_cons, h.next_other true c (Ne.symm hf.1), ih hf.2]

lemma ReadsField.run_field (h : ReadsField stage stop after) {f : Text} (hne : f ≠ []) (hf : stop ∉ f)
    (begun : Bool) (t : Text) : (stage begun).run (f ++ stop :: t) = after.run t := by
  cases f with
  | nil => exact absurd rfl hne
  | cons c f =>
    rw [List.mem_cons, not_or] at hf
    rw [List.cons_append, run_cons, h.next_other begun c (Ne.symm hf.1), h.run_begun hf.2, run_cons, h.next_stop]

lemma ReadsField.exists_of_run_eq_done (h : ReadsField stage stop after) {begun : Bool} {t : Text}
    (hrun : (stage begun).run t = done) :
    ∃ f rest, t = f ++ stop :: rest ∧ stop ∉ f ∧ (begun = false → f ≠ []) ∧ after.run rest = done := by
  induction t generalizing begun with
  | nil => exact absurd hrun (h.ne_done begun)
  | cons c t ih =>
    by_cases hc : c = stop
    · subst hc
      cases begun with
      | false =>
        rw [run_cons, h.next_stop_empty, run_failed] at hrun
        cases hrun
      | true =>
        rw [run_cons, h.next_stop] at hrun
        exact ⟨[], t, rfl, by simp, by simp, hrun⟩
    · rw [run_cons, h.next_other begun c hc] at hrun
      obtain ⟨f, rest, rfl, hf, _, hrest⟩ := ih hrun
      exact ⟨c :: f, rest, rfl, by simp [hf, Ne.symm hc], by simp, hrest⟩

end Field

lemma run_opening {left : Text} (hne : left ≠ []) (t : Text) : (opening left).run (left ++ t) = lead.run t := by
  induction left with
  | nil => exact absurd rfl hne
  | cons d left ih =>
    cases left with
    | nil => simp [next]
    | cons e left =>
      rw [List.cons_append, run_cons]
      simpa [next] using ih (by simp)

lemma exists_of_run_opening {left t : Text} (hrun : (opening left).run t = done) :
    ∃ rest, t = left ++ rest ∧ lead.run rest = done := by
  induction left generalizing t with
  | nil =>
    cases t with
    | nil => cases hrun
    | cons c t => simp [next] at hrun
  | cons d left ih =>
    cases t with
    | nil => cases hrun
    | cons c t =>
      by_cases hc : c = d
      · subst hc
        cases left with
        | nil => exact ⟨t, rfl, by simpa [next] using hrun⟩
        | cons e left =>
          have hleft : (opening (e :: left)).run t = done := by simpa [next] using hrun
          obtain ⟨rest, ht, hrest⟩ := ih hleft
          exact ⟨rest, by rw [ht]; rfl, hrest⟩
      · cases left with
        | nil => simp [next, hc] at hrun
        | cons e left => simp [next, hc] at hrun

lemma run_lead {blanks : Text} (h : blanks.all isBlank) (t : Text) :
    lead.run (blanks ++ '"' :: t) = (query false).run t := by
  induction blanks with
  | nil =>
    have hquote : lead.next '"' = query false := by decide
    rw [List.nil_append, run_cons, hquote]
  | cons c blanks ih =>
    simp only [List.all_cons, Bool.and_eq_true] at h
    rw [List.cons_append, run_cons, next, if_pos h.1, ih h.2]

lemma exists_of_run_lead {t : Text} (hrun : lead.run t = done) :
    ∃ blanks rest, t = blanks ++ '"' :: rest ∧ blanks.all isBlank ∧ (query false).run rest = done := by
  induction t with
  | nil => cases hrun
  | cons c t ih =>
    by_cases hblank : isBlank c
    · rw [run_cons, next, if_pos hblank] at hrun
      obtain ⟨blanks, rest, rfl, hblanks, hrest⟩ := ih hrun
      exact ⟨c :: blanks, rest, rfl, by simp [hblank, hblanks], hrest⟩
    · by_cases hquote : c = '"'
      · subst hquote
        rw [run_cons, next, if_neg hblank, if_pos rfl] at hrun
        exact ⟨[], t, rfl, rfl, hrun⟩
      · rw [run_cons, next, if_neg hblank, if_neg hquote, run_failed] at hrun
        cases hrun

lemma exists_of_run_comma {t : Text} (hrun : comma.run t = done) :
    ∃ rest, t = ',' :: rest ∧ (inner false).run rest = done := by
  cases t with
  | nil => cases hrun
  | cons c t =>
    by_cases hc : c = ','
    · subst hc
      exact ⟨t, rfl, hrun⟩
    · rw [run_cons, next, if_neg hc, run_failed] at hrun
      cases hrun

/-! ### An attempt and the sites of a text -/

lemma run_start_text (s : Site) (t : Text) : start.run (s.text ++ t) = done := by
  have htext : s.text ++ t = Site.opening ++ (s.lead.text ++ '"' :: (s.query.text ++ '"' ::
      ',' :: (s.inner.text ++ ')' :: t))) := by simp [Site.text]
  rw [htext, start, run_opening (by simp [Site.opening]), run_lead s.lead.all_blank,
    readsField_query.run_field s.query.text_ne_nil s.query.stop_not_mem, run_cons]
  exact (readsField_inner.run_field s.inner.text_ne_nil s.inner.stop_not_mem false t).trans (run_done t)

lemma exists_site_of_run_start {t : Text} (hrun : start.run t = done) :
    ∃ (s : Site) (rest : Text), t = s.text ++ rest := by
  obtain ⟨_, rfl, h⟩ := exists_of_run_opening hrun
  obtain ⟨blanks, _, rfl, hblanks, h⟩ := exists_of_run_lead h
  obtain ⟨q, _, rfl, hstop, hne, h⟩ := readsField_query.exists_of_run_eq_done h
  obtain ⟨_, rfl, h⟩ := exists_of_run_comma h
  obtain ⟨r, rest, rfl, hstop', hne', _⟩ := readsField_inner.exists_of_run_eq_done h
  exact ⟨⟨⟨blanks, hblanks⟩, ⟨q, hne rfl, hstop⟩, ⟨r, hne' rfl, hstop'⟩⟩, rest, by simp [Site.text]⟩

/-- A site can be read exactly where an attempt gets done. -/
theorem read?_eq_none_iff (t : Text) : Site.read? t = none ↔ start.run t ≠ done := by
  constructor
  · intro hnone hrun
    obtain ⟨s, rest, rfl⟩ := exists_site_of_run_start hrun
    rw [Site.read?_text_append] at hnone
    cases hnone
  · intro hrun
    cases hread : Site.read? t with
    | none => rfl
    | some found =>
      rw [Site.eq_text_append_of_read? hread, run_start_text] at hrun
      exact absurd rfl hrun

/-- What is to come of the opening holds no `t`, as behind its first character. -/
def Underway : Attempt → Prop
  | opening left => 't' ∉ left
  | _ => True

lemma underway_next_start (c : Char) : (start.next c).Underway := by
  by_cases hc : c = 't'
  · subst hc
    simp [start, Site.opening, marker, next, Underway]
  · simp [start, Site.opening, marker, next, hc, Underway]

lemma Underway.next {a : Attempt} (h : a.Underway) (c : Char) : (a.next c).Underway := by
  match a with
  | opening [] => exact trivial
  | opening [d] =>
    simp only [Attempt.next]
    split <;> exact trivial
  | opening (d :: e :: left) =>
    simp only [Attempt.next]
    split
    · exact fun hmem => h (List.mem_cons_of_mem d hmem)
    · exact trivial
  | lead =>
    simp only [Attempt.next]
    split
    · exact trivial
    · split <;> exact trivial
  | query begun =>
    simp only [Attempt.next]
    split
    · exact trivial
    · split <;> exact trivial
  | comma =>
    simp only [Attempt.next]
    split <;> exact trivial
  | inner begun =>
    simp only [Attempt.next]
    split
    · exact trivial
    · split <;> exact trivial
  | done => exact trivial
  | failed => exact trivial

lemma Underway.next_t {left : Text} (h : (opening left).Underway) : (opening left).next 't' = failed := by
  match left with
  | [] => rfl
  | [d] =>
    have hd : 't' ≠ d := by simpa [Underway] using h
    rw [Attempt.next, if_neg hd]
  | d :: e :: left =>
    have hd : 't' ≠ d := by
      rintro rfl
      exact h (by simp)
    rw [Attempt.next, if_neg hd]
    simp

lemma Underway.run {a : Attempt} (h : a.Underway) (t : Text) : (a.run t).Underway := by
  induction t generalizing a with
  | nil => exact h
  | cons c t ih => exact ih (h.next c)

/-- What comes of an attempt that meets a site with the query `q`. The opening of the site and its blanks
hold no quote, and its first character is no blank, so that only an attempt at its query reads on to `q`. -/
def meet (q : Text) : Attempt → Attempt
  | query _ =>
    match q with
    | ',' :: rest => if rest.head? = some ')' then failed else done
    | _ => failed
  | inner _ | done => done
  | opening _ | lead | comma | failed => failed

lemma run_inner_of_mem {t : Text} (h : ')' ∈ t) : (inner true).run t = done := by
  induction t with
  | nil => cases h
  | cons c t ih =>
    by_cases hc : c = ')'
    · subst hc
      exact run_done t
    · rw [run_cons, readsField_inner.next_other true c hc]
      exact ih (List.mem_of_ne_of_mem (Ne.symm hc) h)

lemma run_comma_query (q : Field '"') {t : Text} (ht : ')' ∈ t) (begun : Bool) :
    comma.run (q.text ++ '"' :: t) = (query begun).meet q.text := by
  obtain ⟨_ | ⟨c, q⟩, hne, hstop⟩ := q
  · exact absurd rfl hne
  by_cases hc : c = ','
  · subst hc
    have hmem : ')' ∈ '"' :: t := List.mem_cons_of_mem _ ht
    have hcomma : comma.run (',' :: q ++ '"' :: t) = (inner false).run (q ++ '"' :: t) := rfl
    rw [hcomma]
    cases q with
    | nil => exact run_inner_of_mem ht
    | cons d q =>
      by_cases hd : d = ')'
      · subst hd
        exact run_failed _
      · rw [List.cons_append, run_cons, readsField_inner.next_other false d hd,
          run_inner_of_mem (List.mem_append_right q hmem)]
        simp [meet, hd]
  · rw [List.cons_append, run_cons, next, if_neg hc, run_failed]
    simp [meet, hc]

/-- A site on the way of an attempt decides it, whatever stands behind the site. -/
theorem run_text {a : Attempt} (h : a.Underway) (s : Site) (t : Text) :
    a.run (s.text ++ t) = a.meet s.query.text := by
  have hcons : s.text ++ t = 't' :: (s.text.tail ++ t) := rfl
  have hclose : ')' ∈ s.inner.text ++ ')' :: t := by simp
  cases a with
  | opening left => rw [hcons, run_cons, h.next_t, run_failed, meet]
  | lead =>
    have hlead : lead.next 't' = failed := by decide
    rw [hcons, run_cons, hlead, run_failed, meet]
  | query begun =>
    have htext : s.text ++ t = (Site.opening ++ s.lead.text) ++ '"' :: (s.query.text ++ '"' ::
        (',' :: (s.inner.text ++ ')' :: t))) := by simp [Site.text]
    have hquote : '"' ∉ Site.opening ++ s.lead.text := by
      rw [List.mem_append, not_or]
      exact ⟨by decide, not_mem_of_all_isBlank s.lead.all_blank (by decide)⟩
    rw [htext, readsField_query.run_field (by simp [Site.opening]) hquote,
      run_comma_query s.query (List.mem_cons_of_mem _ hclose) begun]
  | comma =>
    have hcomma : comma.next 't' = failed := by decide
    rw [hcons, run_cons, hcomma, run_failed, meet]
  | inner begun =>
    have htail : ')' ∈ s.text.tail ++ t := by simp [Site.text, Site.opening, marker]
    rw [hcons, run_cons, readsField_inner.next_other begun 't' (by decide), run_inner_of_mem htail, meet]
  | done => exact run_done _
  | failed => exact run_failed _

end Attempt

end ParamsWrap
