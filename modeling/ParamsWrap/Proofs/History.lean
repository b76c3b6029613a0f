import ParamsWrap.Proofs.WrapFile

/-!
# What happened in a session

The log of a session is its steps with the replies to them. It tells for each name when the value under it was
loaded: a copy when the value was that it is a copy of, and wrapping and saving change nothing about it. What is
held under a name comes from the snapshot that was taken then.
-/

namespace ParamsWrap

/-- When the value under a name was loaded, by the number of steps before, from a log with its last step first. -/
def loadedAt? : List (Step × Reply) → String → Option Nat
  | [], _ => none
  | (.load _ into, .held _) :: past, name => if name = into then some past.length else loadedAt? past name
  | (.wrapFile _ (some into), .held _) :: past, name => if name = into then some past.length else loadedAt? past name
  | (.copy source into, .done) :: past, name => if name = into then loadedAt? past source else loadedAt? past name
  | (.save dropped, .failed _) :: past, name => if name = dropped then none else loadedAt? past name
  | _ :: past, name => loadedAt? past name

/-- The path that a step loads from. -/
def Step.source? : Step → Option Path
  | .load p _ | .wrapFile p _ => some p
  | _ => none

/-- What is held of a snapshot in the course of an edit. -/
inductive Snapshot.Becomes (d : Snapshot) : Held → Prop
  | snapshot : Becomes d (.snapshot d)
  | wrapped : Becomes d (.wrapped d.wrap)
  | summary : Becomes d (.summary d.wrap.summary)

namespace Session

def after (s : Session) (steps : List Step) : Session := (s.run steps).2

def replies (s : Session) (steps : List Step) : List Reply := (s.run steps).1

/-- The steps with their replies, the last one first. -/
def log (s : Session) (steps : List Step) : List (Step × Reply) := (steps.zip (s.replies steps)).reverse

variable {s : Session} {steps : List Step}

lemma after_append (s : Session) (steps more : List Step) : s.after (steps ++ more) = (s.after steps).after more := by
  induction steps generalizing s with
  | nil => rfl
  | cons step rest ih => exact ih (s.step step).2

lemma replies_append (s : Session) (steps more : List Step) :
    s.replies (steps ++ more) = s.replies steps ++ (s.after steps).replies more := by
  induction steps generalizing s with
  | nil => rfl
  | cons step rest ih => exact congrArg ((s.step step).1 :: ·) (ih (s.step step).2)

lemma length_replies (s : Session) (steps : List Step) : (s.replies steps).length = steps.length := by
  induction steps generalizing s with
  | nil => rfl
  | cons step rest ih => exact congrArg (· + 1) (ih (s.step step).2)

lemma log_append (s : Session) (steps more : List Step) :
    s.log (steps ++ more) = (s.after steps).log more ++ s.log steps := by
  rw [log, replies_append, List.zip_append (length_replies s steps).symm, List.reverse_append]
  rfl

lemma length_log (s : Session) (steps : List Step) : (s.log steps).length = steps.length := by
  rw [log, List.length_reverse, List.length_zip, length_replies, Nat.min_self]

lemma after_concat (s : Session) (steps : List Step) (step : Step) :
    s.after (steps ++ [step]) = ((s.after steps).step step).2 := after_append s steps [step]

lemma log_concat (s : Session) (steps : List Step) (step : Step) :
    s.log (steps ++ [step]) = (step, ((s.after steps).step step).1) :: s.log steps := log_append s steps [step]

/-! ### Names and what is held under them -/

lemma held?_release_self (s : Session) (name : String) : (s.release name).held? name = none := by
  have hfilter := lookup_filter s.slots (· = name) name
  simpa [held?, release] using hfilter

lemma held?_release_of_ne (s : Session) {name other : String} (h : other ≠ name) :
    (s.release name).held? other = s.held? other := by
  have hfilter := lookup_filter s.slots (· = name) other
  simpa [held?, release, h] using hfilter

lemma held?_hold_self (s : Session) (name : String) (h : Held) : (s.hold name h).held? name = some h :=
  List.lookup_cons_self

lemma held?_hold_of_ne (s : Session) {name other : String} (hne : other ≠ name) (h : Held) :
    (s.hold name h).held? other = s.held? other := by
  have hb : (other == name) = false := beq_false_of_ne hne
  rw [← s.held?_release_of_ne hne]
  simp [held?, hold, List.lookup_cons, hb]

/-- What a step does to the value under a name, and what the log then tells of it. -/
inductive Fate (s : Session) (step : Step) (r : Reply) (s' : Session) (name : String) : Prop
  | kept (hheld : s'.held? name = s.held? name)
      (hlog : ∀ past, loadedAt? ((step, r) :: past) name = loadedAt? past name)
  | loaded (d : Snapshot) (h : Held) (hsource : step.source? = some d.path)
      (hreads : s.tree.Reads d.path d.text) (hbecomes : d.Becomes h) (hheld : s'.held? name = some h)
      (hlog : ∀ past, loadedAt? ((step, r) :: past) name = some past.length)
  | advanced (old new : Held) (hold : s.held? name = some old)
      (hbecomes : ∀ d : Snapshot, d.Becomes old → d.Becomes new) (hheld : s'.held? name = some new)
      (hlog : ∀ past, loadedAt? ((step, r) :: past) name = loadedAt? past name)
  | copied (h : Held) (source : String) (hold : s.held? source = some h) (hheld : s'.held? name = some h)
      (hlog : ∀ past, loadedAt? ((step, r) :: past) name = loadedAt? past source)
  | dropped (hheld : s'.held? name = none)

lemma held?_changed (s : Session) (outcome : Except Fault Unit × FileTree) (name : String) :
    (s.changed outcome).2.held? name = s.held? name := by
  obtain ⟨_ | _, tree⟩ := outcome <;> rfl

lemma fate_load (s : Session) (p : Path) (into name : String) :
    s.Fate (.load p into) (s.step (.load p into)).1 (s.step (.load p into)).2 name := by
  simp only [step]
  split
  · exact .kept rfl fun _ => rfl
  · rename_i d tree hload
    obtain ⟨_, rfl, hreads⟩ := FileTree.load_eq_ok_iff.mp hload
    by_cases hname : name = into
    · subst hname
      exact .loaded d _ rfl hreads .snapshot (held?_hold_self _ name _) fun _ => if_pos rfl
    · exact .kept (held?_hold_of_ne _ hname _) fun _ => if_neg hname

lemma fate_wrap (s : Session) (into name : String) :
    s.Fate (.wrap into) (s.step (.wrap into)).1 (s.step (.wrap into)).2 name := by
  simp only [step]
  split
  · exact .kept rfl fun _ => rfl
  · rename_i d hheld
    by_cases hname : name = into
    · subst hname
      have hbecomes : ∀ e : Snapshot, e.Becomes (.snapshot d) → e.Becomes (.wrapped d.wrap) := by
        rintro _ ⟨⟩
        exact .wrapped
      exact .advanced _ _ hheld hbecomes (s.held?_hold_self name _) fun _ => rfl
    · exact .kept (s.held?_hold_of_ne hname _) fun _ => rfl
  · exact .kept rfl fun _ => rfl

lemma fate_save (s : Session) (into name : String) :
    s.Fate (.save into) (s.step (.save into)).1 (s.step (.save into)).2 name := by
  simp only [step]
  split
  · exact .kept rfl fun _ => rfl
  · rename_i w hheld
    cases hsave : s.tree.save w with
    | mk result tree =>
      cases result with
      | error e =>
        -- The name is given up: saving uses the value up, whether it succeeds or not.
        by_cases hname : name = into
        · subst hname
          exact .dropped (held?_release_self _ name)
        · exact .kept (held?_release_of_ne _ hname) fun _ => if_neg hname
      | ok r =>
        obtain ⟨rfl, _⟩ := FileTree.save_eq_ok hsave
        by_cases hname : name = into
        · subst hname
          have hbecomes : ∀ d : Snapshot, d.Becomes (.wrapped w) → d.Becomes (.summary w.summary) := by
            rintro d ⟨⟩
            exact .summary
          exact .advanced _ _ hheld hbecomes (held?_hold_self _ name _) fun _ => rfl
        · exact .kept (held?_hold_of_ne _ hname _) fun _ => rfl
  · exact .kept rfl fun _ => rfl

lemma fate_wrapFile (s : Session) (p : Path) (into? : Option String) (name : String) :
    s.Fate (.wrapFile p into?) (s.step (.wrapFile p into?)).1 (s.step (.wrapFile p into?)).2 name := by
  simp only [step]
  split
  · cases into? with
    | none => exact .kept rfl fun _ => rfl
    | some into => exact .kept rfl fun _ => rfl
  · rename_i r tree hwrap
    obtain ⟨l, t, hnames, hholds, rfl, _⟩ := FileTree.wrapFile_eq_ok hwrap
    cases into? with
    | none => exact .kept rfl fun _ => rfl
    | some into =>
      by_cases hname : name = into
      · subst hname
        exact .loaded ⟨p, t⟩ _ rfl ⟨l, hnames, hholds⟩ .summary (held?_hold_self _ name _) fun _ => if_pos rfl
      · exact .kept (held?_hold_of_ne _ hname _) fun _ => if_neg hname

lemma fate_copy (s : Session) (source into name : String) :
    s.Fate (.copy source into) (s.step (.copy source into)).1 (s.step (.copy source into)).2 name := by
  simp only [step]
  split
  · exact .kept rfl fun _ => rfl
  · rename_i h hheld
    by_cases hname : name = into
    · subst hname
      exact .copied h source hheld (s.held?_hold_self name h) fun _ => if_pos rfl
    · exact .kept (s.held?_hold_of_ne hname h) fun _ => if_neg hname

lemma fate_step (s : Session) (step : Step) (name : String) :
    s.Fate step (s.step step).1 (s.step step).2 name := by
  cases step with
  | put p content => exact .kept (held?_changed s _ name) fun _ => rfl
  | append p content => exact .kept (held?_changed s _ name) fun _ => rfl
  | makeDirs p => exact .kept (held?_changed s _ name) fun _ => rfl
  | remove p => exact .kept (held?_changed s _ name) fun _ => rfl
  | look p => exact .kept rfl fun _ => rfl
  | load p into => exact fate_load s p into name
  | wrap into => exact fate_wrap s into name
  | save into => exact fate_save s into name
  | wrapFile p into? => exact fate_wrapFile s p into? name
  | peek other =>
    simp only [Session.step]
    split <;> exact .kept rfl fun _ => rfl
  | copy source into => exact fate_copy s source into name
  | compare one other =>
    simp only [Session.step]
    split <;> exact .kept rfl fun _ => rfl

/-! ### Where the values come from -/

/-- The value under a name was loaded, after some of the steps, by a step that loads from the path, and the file
held the text then. -/
def LoadedFrom (s : Session) (steps : List Step) (name : String) (p : Path) (t : Text) : Prop :=
  ∃ i step, loadedAt? (s.log steps) name = some i ∧ steps[i]? = some step ∧ step.source? = some p ∧
    (s.after (steps.take i)).tree.Reads p t

lemma LoadedFrom.concat {step : Step} {name other : String} {p : Path} {t : Text}
    (h : s.LoadedFrom steps name p t)
    (hlog : loadedAt? (s.log (steps ++ [step])) other = loadedAt? (s.log steps) name) :
    s.LoadedFrom (steps ++ [step]) other p t := by
  obtain ⟨i, origin, hi, horigin, hsource, hreads⟩ := h
  obtain ⟨hlt, _⟩ := List.getElem?_eq_some_iff.mp horigin
  refine ⟨i, origin, hlog.trans hi, ?_, hsource, ?_⟩
  · rwa [List.getElem?_append_left hlt]
  · rwa [List.take_append_of_le_length (Nat.le_of_lt hlt)]

/-- What is held under a name has become of the snapshot that was loaded for it. -/
def Sourced (s : Session) (steps : List Step) : Prop :=
  ∀ name h, (s.after steps).held? name = some h →
    ∃ d : Snapshot, s.LoadedFrom steps name d.path d.text ∧ d.Becomes h

lemma Sourced.concat (hsourced : s.Sourced steps) (step : Step) : s.Sourced (steps ++ [step]) := by
  intro name h hname
  have hlogs := log_concat s steps step
  rw [after_concat] at hname
  cases fate_step (s.after steps) step name with
  | kept hheld hlog =>
    obtain ⟨d, hloaded, hbecomes⟩ := hsourced name h (hheld.symm.trans hname)
    exact ⟨d, hloaded.concat (by rw [hlogs, hlog]), hbecomes⟩
  | loaded d new hsource hreads hbecomes hheld hlog =>
    cases hheld.symm.trans hname
    refine ⟨d, ⟨steps.length, step, ?_, List.getElem?_concat_length, hsource, ?_⟩, hbecomes⟩
    · rw [hlogs, hlog, length_log]
    · rwa [List.take_left]
  | advanced old new hold hbecomes hheld hlog =>
    cases hheld.symm.trans hname
    obtain ⟨d, hloaded, holder⟩ := hsourced name old hold
    exact ⟨d, hloaded.concat (by rw [hlogs, hlog]), hbecomes d holder⟩
  | copied same source hold hheld hlog =>
    cases hheld.symm.trans hname
    -- The log tells of the copy what it told of the name that was copied, so its snapshot is the same.
    obtain ⟨d, hloaded, hbecomes⟩ := hsourced source h hold
    exact ⟨d, hloaded.concat (by rw [hlogs, hlog]), hbecomes⟩
  | dropped hheld => cases hheld.symm.trans hname

/-- Whatever happens in a session that begins with nothing held, each value is what became of its snapshot. -/
theorem sourced_start (tree : FileTree) (steps : List Step) : (start tree).Sourced steps := by
  induction steps using List.reverseRecOn with
  | nil =>
    intro name h hname
    cases hname
  | append_singleton steps step ih => exact ih.concat step

end Session

end ParamsWrap
