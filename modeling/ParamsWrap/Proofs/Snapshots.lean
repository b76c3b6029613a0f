import ParamsWrap.Proofs.History

/-!
# Snapshots of files that change

A session may take any steps on any paths while the files are changed from outside. Whatever is held under a
name is told by the text that its file held when it was loaded, and the tree changes by saving alone: one file
comes to hold the wrapped text, whatever it held before.
-/

namespace ParamsWrap

/-- The step was not taken. -/
def Reply.isFailure : Reply → Bool
  | .failed _ | .refused _ | .unknownName _ | .wrongKind _ => true
  | .done | .sight _ | .held _ | .same _ => false

/-- The step is a change from outside, or saves something. -/
def Step.changesTree : Step → Bool
  | .put .. | .append .. | .makeDirs _ | .remove _ | .save _ | .wrapFile .. => true
  | .look _ | .load .. | .wrap _ | .peek _ | .copy .. | .compare .. => false

namespace Session

variable {s : Session}

lemma tree_step_of_not_changesTree {st : Step} (h : st.changesTree = false) : (s.step st).2.tree = s.tree := by
  cases st with
  | put p content => cases h
  | append p content => cases h
  | makeDirs p => cases h
  | remove p => cases h
  | save name => cases h
  | wrapFile p name? => cases h
  | look p => rfl
  | load p name =>
    have hsame := s.tree.load_snd p
    simp only [step]
    split
    · rename_i hload
      rwa [hload] at hsame
    · rename_i hload
      rwa [hload] at hsame
  | wrap name =>
    simp only [step]
    split <;> rfl
  | peek name =>
    simp only [step]
    split <;> rfl
  | copy name other =>
    simp only [step]
    split <;> rfl
  | compare name other =>
    simp only [step]
    split <;> rfl

lemma exists_of_changed_isFailure {outcome : Except Fault Unit × FileTree}
    (h : (s.changed outcome).1.isFailure) : ∃ f, outcome = (.error f, (s.changed outcome).2.tree) := by
  obtain ⟨result, tree⟩ := outcome
  cases result with
  | error f => exact ⟨f, rfl⟩
  | ok _ => cases h

lemma exists_of_saved_isFailure {name : String} {outcome : Except EditError Summary × FileTree}
    (h : (s.saved name outcome).1.isFailure) : ∃ e, outcome = (.error e, (s.saved name outcome).2.tree) := by
  obtain ⟨result, tree⟩ := outcome
  cases result with
  | error e => exact ⟨e, rfl⟩
  | ok _ => cases h

/-- Outside of an edit directories may be made or removed in part, but all other steps that fail do so before they
touch the tree. -/
lemma tree_step_of_isFailure {st : Step} (hdirs : ∀ p, st ≠ .makeDirs p ∧ st ≠ .remove p)
    (h : (s.step st).1.isFailure) : (s.step st).2.tree = s.tree := by
  cases st with
  | put p content =>
    obtain ⟨f, hwrite⟩ := exists_of_changed_isFailure h
    exact (FileTree.write_eq_error_iff.mp hwrite).2
  | append p content =>
    obtain ⟨f, happend⟩ := exists_of_changed_isFailure h
    exact (FileTree.output_eq_error_iff.mp happend).2
  | makeDirs p => exact absurd rfl (hdirs p).1
  | remove p => exact absurd rfl (hdirs p).2
  | save name =>
    simp only [step] at h ⊢
    split
    · rfl
    · rename_i w hheld
      rw [hheld] at h
      obtain ⟨e, hsave⟩ := exists_of_saved_isFailure h
      exact (FileTree.save_eq_error_iff.mp hsave).1
    · rfl
  | wrapFile p name? =>
    simp only [step] at h ⊢
    split
    · rename_i hwrap
      exact FileTree.eq_of_wrapFile_eq_error hwrap
    · rename_i hwrap
      rw [hwrap] at h
      cases h
  | look p => rfl
  | load p name => exact tree_step_of_not_changesTree rfl
  | wrap name => exact tree_step_of_not_changesTree rfl
  | peek name => exact tree_step_of_not_changesTree rfl
  | copy name other => exact tree_step_of_not_changesTree rfl
  | compare name other => exact tree_step_of_not_changesTree rfl

/-! ### What is written -/

lemma step_save_of_names {name : String} {w : Wrapped} {l : Location} (hheld : s.held? name = some (.wrapped w))
    (hnames : s.tree.Names w.path l) (hdir : s.tree.entryAt? l ≠ some .dir) :
    (s.step (.save name)).1 = .held (.summary w.summary) ∧
      s.tree.Replaces l w.text.encode (s.step (.save name)).2.tree := by
  obtain ⟨tree', hsave, hreplaces⟩ := FileTree.exists_save_eq_ok hnames hdir
  simp only [step, hheld, hsave]
  exact ⟨rfl, hreplaces⟩

lemma exists_of_step_save_eq_held {name : String} {w : Wrapped} {h : Held}
    (hheld : s.held? name = some (.wrapped w)) (hreply : (s.step (.save name)).1 = .held h) :
    ∃ l, s.tree.Names w.path l ∧ s.tree.entryAt? l ≠ some .dir := by
  simp only [step, hheld] at hreply
  cases hsave : s.tree.save w with
  | mk result tree =>
    rw [hsave] at hreply
    cases result with
    | error e => cases hreply
    | ok r =>
      obtain ⟨_, l, hnames, hdir, _⟩ := FileTree.save_eq_ok hsave
      exact ⟨l, hnames, hdir⟩

lemma exists_step_save_eq_held_iff {name : String} {w : Wrapped} (hheld : s.held? name = some (.wrapped w)) :
    (∃ h, (s.step (.save name)).1 = .held h) ↔
      ∃ l, s.tree.Names w.path l ∧ s.tree.entryAt? l ≠ some .dir := by
  constructor
  · rintro ⟨h, hreply⟩
    exact exists_of_step_save_eq_held hheld hreply
  · rintro ⟨l, hnames, hdir⟩
    exact ⟨_, (step_save_of_names hheld hnames hdir).1⟩

lemma replaces_of_step_save_eq_held {name : String} {w : Wrapped} {h : Held}
    (hheld : s.held? name = some (.wrapped w)) (hreply : (s.step (.save name)).1 = .held h) :
    h = .summary w.summary ∧
      ∃ l, s.tree.Names w.path l ∧ s.tree.Replaces l w.text.encode (s.step (.save name)).2.tree := by
  obtain ⟨l, hnames, hdir⟩ := exists_of_step_save_eq_held hheld hreply
  obtain ⟨hsaved, hreplaces⟩ := step_save_of_names hheld hnames hdir
  cases hsaved.symm.trans hreply
  exact ⟨rfl, l, hnames, hreplaces⟩

lemma step_wrapFile_of_names {p : Path} {l : Location} {t : Text} (name? : Option String)
    (hnames : s.tree.Names p l) (hholds : s.tree.Holds l t) :
    (s.step (.wrapFile p name?)).1 =
        .held (.summary ⟨p, (calls t).length, decide (0 < (calls t).length)⟩) ∧
      s.tree.Replaces l (ParamsWrap.wrap t).encode (s.step (.wrapFile p name?)).2.tree := by
  have hchanged := Snapshot.wrap_changed ⟨p, t⟩
  obtain ⟨tree', hwrap, hreplaces⟩ := FileTree.exists_wrapFile_eq_ok hnames hholds
  simp only [step, hwrap]
  constructor
  · simp only [Wrapped.summary, hchanged]
    rfl
  · cases name? <;> exact hreplaces

lemma exists_of_step_wrapFile_eq_held {p : Path} {name? : Option String} {h : Held}
    (hreply : (s.step (.wrapFile p name?)).1 = .held h) : ∃ l t, s.tree.Names p l ∧ s.tree.Holds l t := by
  simp only [step] at hreply
  split at hreply
  · cases hreply
  · rename_i hwrap
    obtain ⟨l, t, hnames, hholds, _⟩ := FileTree.wrapFile_eq_ok hwrap
    exact ⟨l, t, hnames, hholds⟩

lemma exists_step_wrapFile_eq_held_iff {p : Path} (name? : Option String) :
    (∃ h, (s.step (.wrapFile p name?)).1 = .held h) ↔ ∃ t, s.tree.Reads p t := by
  constructor
  · rintro ⟨h, hreply⟩
    obtain ⟨l, t, hnames, hholds⟩ := exists_of_step_wrapFile_eq_held hreply
    exact ⟨t, l, hnames, hholds⟩
  · rintro ⟨t, l, hnames, hholds⟩
    exact ⟨_, (step_wrapFile_of_names name? hnames hholds).1⟩

lemma replaces_of_step_wrapFile_eq_held {p : Path} {name? : Option String} {h : Held}
    (hreply : (s.step (.wrapFile p name?)).1 = .held h) : ∃ l t, s.tree.Names p l ∧ s.tree.Holds l t ∧
      h = .summary ⟨p, (calls t).length, decide (0 < (calls t).length)⟩ ∧
      s.tree.Replaces l (ParamsWrap.wrap t).encode (s.step (.wrapFile p name?)).2.tree := by
  obtain ⟨l, t, hnames, hholds⟩ := exists_of_step_wrapFile_eq_held hreply
  obtain ⟨hsaved, hreplaces⟩ := step_wrapFile_of_names name? hnames hholds
  cases hsaved.symm.trans hreply
  exact ⟨l, t, hnames, hholds, rfl, hreplaces⟩

end Session

/-- Whatever is held tells what its file held when it was loaded, however the tree changed since. Loading, wrapping,
copying and failing leave the tree alone, and saving touches one file, which then holds the wrapped text. -/
theorem held_of_loaded_text (tree : FileTree) (steps : List Step) :
    let start := Session.start tree
    let s := start.after steps
    (∀ name d, s.held? name = some (.snapshot d) → start.LoadedFrom steps name d.path d.text) ∧
    (∀ name w, s.held? name = some (.wrapped w) → ∃ t, start.LoadedFrom steps name w.path t ∧
      w.text = wrap t ∧ w.count = (calls t).length ∧ w.changed = decide (0 < w.count)) ∧
    (∀ name r, s.held? name = some (.summary r) → ∃ t, start.LoadedFrom steps name r.file t ∧
      r.count = (calls t).length ∧ r.changed = decide (0 < r.count)) ∧
    (∀ p name other, (s.step (.load p name)).2.tree = s.tree ∧ (s.step (.wrap name)).2.tree = s.tree ∧
      (s.step (.copy name other)).2.tree = s.tree) ∧
    (∀ step, (∀ p, step ≠ .makeDirs p ∧ step ≠ .remove p) → (s.step step).1.isFailure = true →
      (s.step step).2.tree = s.tree) ∧
    (∀ name w, s.held? name = some (.wrapped w) →
      ((∃ h, (s.step (.save name)).1 = .held h) ↔
        ∃ l, s.tree.Names w.path l ∧ s.tree.entryAt? l ≠ some .dir) ∧
      ∀ h, (s.step (.save name)).1 = .held h → h = .summary ⟨w.path, w.count, w.changed⟩ ∧
        ∃ l, s.tree.Names w.path l ∧ s.tree.Replaces l w.text.encode (s.step (.save name)).2.tree) ∧
    (∀ p name?, ((∃ h, (s.step (.wrapFile p name?)).1 = .held h) ↔ ∃ t, s.tree.Reads p t) ∧
      ∀ h, (s.step (.wrapFile p name?)).1 = .held h → ∃ l t, s.tree.Names p l ∧ s.tree.Holds l t ∧
        h = .summary ⟨p, (calls t).length, decide (0 < (calls t).length)⟩ ∧
        s.tree.Replaces l (wrap t).encode (s.step (.wrapFile p name?)).2.tree) := by
  intro start s
  have hsourced := Session.sourced_start tree steps
  refine ⟨?_, ?_, ?_, ?_, fun step => Session.tree_step_of_isFailure, ?_, ?_⟩
  · intro name d hd
    obtain ⟨_, hloaded, ⟨⟩⟩ := hsourced name _ hd
    exact hloaded
  · intro name w hw
    obtain ⟨d, hloaded, ⟨⟩⟩ := hsourced name _ hw
    exact ⟨d.text, hloaded, rfl, rfl, d.wrap_changed⟩
  · intro name r hr
    obtain ⟨d, hloaded, ⟨⟩⟩ := hsourced name _ hr
    exact ⟨d.text, hloaded, rfl, d.wrap_changed⟩
  · intro p name other
    exact ⟨Session.tree_step_of_not_changesTree rfl, Session.tree_step_of_not_changesTree rfl,
      Session.tree_step_of_not_changesTree rfl⟩
  · intro name w hw
    exact ⟨Session.exists_step_save_eq_held_iff hw, fun h => Session.replaces_of_step_save_eq_held hw⟩
  · intro p name?
    exact ⟨Session.exists_step_wrapFile_eq_held_iff name?, fun h => Session.replaces_of_step_wrapFile_eq_held⟩

end ParamsWrap
