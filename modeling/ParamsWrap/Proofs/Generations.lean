import ParamsWrap.Proofs.Snapshots

/-!
# Generations of one file

Where nobody else writes a file, its text is at every moment that of the beginning, wrapped a number of times.
Saving what was loaded from one generation puts the next one in the place of whatever the file holds, so that
edits of the same generation do not add up. All of them find the same number of calls.
-/

namespace ParamsWrap

/-- The step belongs to an edit of the file at a location, or asks a question. -/
def Step.EditsFile (tree : FileTree) (l : Location) : Step → Prop
  | .load p _ | .wrapFile p _ => tree.Names p l
  | .put .. | .append .. | .makeDirs _ | .remove _ => False
  | .look _ | .wrap _ | .save _ | .peek _ | .copy .. | .compare .. => True

/-- A step that saves, with the reply that it did. -/
def isWrite : Step × Reply → Bool
  | (.save _, .held _) | (.wrapFile .., .held _) => true
  | _ => false

/-- How often a file was written. -/
def writes (log : List (Step × Reply)) : Nat := log.countP isWrite

/-- What is held tells a number of calls, and whether there were any. -/
def Held.Counts (k : Nat) : Held → Prop
  | .snapshot _ => True
  | .wrapped w => w.count = k ∧ w.changed = decide (0 < k)
  | .summary r => r.count = k ∧ r.changed = decide (0 < k)

lemma Snapshot.Becomes.counts {d : Snapshot} {h : Held} (hbecomes : d.Becomes h) {j : Nat} {t : Text}
    (htext : d.text = ParamsWrap.wrap^[j] t) : h.Counts (calls t).length := by
  have hcount : d.wrap.count = (calls t).length := by
    rw [← length_calls_iterate_wrap j t, ← htext]
    rfl
  have hchanged := d.wrap_changed
  rw [hcount] at hchanged
  cases hbecomes with
  | snapshot => exact trivial
  | wrapped => exact ⟨hcount, hchanged⟩
  | summary => exact ⟨hcount, hchanged⟩

namespace Session

/-- The names that the step uses hold what it asks for. -/
def Offers (s : Session) : Step → Prop
  | .wrap name => ∃ d, s.held? name = some (.snapshot d)
  | .save name => ∃ w, s.held? name = some (.wrapped w)
  | .peek name | .copy name _ => ∃ h, s.held? name = some h
  | .compare name other => (∃ h, s.held? name = some h) ∧ ∃ h, s.held? other = some h
  | _ => True

/-- At each moment of a session that begins with the tree, the file at the location holds the text wrapped a number
of times, no more often than files were written, and all else is as it was. -/
def Passes (tree : FileTree) (l : Location) (t : Text) (steps : List Step) : Prop :=
  ∀ i, ∃ j ≤ writes ((start tree).log (steps.take i)),
    tree.Replaces l (ParamsWrap.wrap^[j] t).encode ((start tree).after (steps.take i)).tree

variable {s : Session} {steps : List Step} {tree : FileTree} {l : Location} {t : Text}

lemma writes_log_concat (s : Session) (steps : List Step) (step : Step) :
    writes (s.log (steps ++ [step])) =
      writes (s.log steps) + if isWrite (step, ((s.after steps).step step).1) then 1 else 0 := by
  rw [writes, log_concat, List.countP_cons]
  rfl

lemma writes_log_take_le (s : Session) (steps : List Step) (i : Nat) :
    writes (s.log (steps.take i)) ≤ writes (s.log steps) := by
  have hsplit := log_append s (steps.take i) (steps.drop i)
  rw [List.take_append_drop] at hsplit
  rw [writes, writes, hsplit, List.countP_append]
  exact Nat.le_add_left _ _

lemma names_of_source {step : Step} {p : Path} (h : step.EditsFile tree l) (hsource : step.source? = some p) :
    tree.Names p l := by
  cases step <;> cases hsource <;> exact h

/-- What is held under a name was loaded from a generation of the file. -/
lemma Passes.exists_of_held (hpasses : Passes tree l t steps) (hfile : tree.Holds l t)
    (hsteps : ∀ step ∈ steps, step.EditsFile tree l) {name : String} {h : Held}
    (hname : ((start tree).after steps).held? name = some h) :
    ∃ (i j : Nat) (d : Snapshot), loadedAt? ((start tree).log steps) name = some i ∧
      j ≤ writes ((start tree).log steps) ∧
      ((start tree).after (steps.take i)).tree.Holds l (ParamsWrap.wrap^[j] t) ∧
      tree.Names d.path l ∧ d.text = ParamsWrap.wrap^[j] t ∧ d.Becomes h := by
  obtain ⟨d, ⟨i, step, hi, hstep, hsource, m, hnames, hholds⟩, hbecomes⟩ := sourced_start tree steps name h hname
  -- The file was the same location for the path when it was loaded, and held some generation of the text.
  obtain ⟨j, hj, hreplaces⟩ := hpasses i
  have hpath := names_of_source (hsteps step (List.mem_of_getElem? hstep)) hsource
  obtain rfl := (hreplaces.names hfile.ne_dir hpath).unique hnames
  have htext := hholds.unique hreplaces.entryAt?_self
  exact ⟨i, j, d, hi, hj.trans (writes_log_take_le _ steps i), hreplaces.entryAt?_self, hpath, htext, hbecomes⟩

lemma Passes.last (h : Passes tree l t steps) : ∃ j ≤ writes ((start tree).log steps),
    tree.Replaces l (ParamsWrap.wrap^[j] t).encode ((start tree).after steps).tree := by
  have hlast := h steps.length
  rwa [List.take_length] at hlast

/-! ### What a step makes of a generation -/

section Step

variable (hpasses : Passes tree l t steps) (hfile : tree.Holds l t) (hsteps : ∀ step ∈ steps, step.EditsFile tree l)
include hpasses hfile

lemma Passes.names {p : Path} (hp : tree.Names p l) : ((start tree).after steps).tree.Names p l := by
  obtain ⟨j, _, hreplaces⟩ := hpasses.last
  exact hreplaces.names hfile.ne_dir hp

lemma Passes.step_wrapFile {p : Path} (hp : tree.Names p l) (name? : Option String) {j : Nat}
    (hholds : ((start tree).after steps).tree.Holds l (ParamsWrap.wrap^[j] t)) :
    (((start tree).after steps).step (.wrapFile p name?)).1 =
        .held (.summary ⟨p, (calls t).length, decide (0 < (calls t).length)⟩) ∧
      ((start tree).after steps).tree.Replaces l (ParamsWrap.wrap^[j + 1] t).encode
        (((start tree).after steps).step (.wrapFile p name?)).2.tree := by
  have hstep := step_wrapFile_of_names name? (hpasses.names hfile hp) hholds
  rwa [length_calls_iterate_wrap, ← Function.iterate_succ_apply' ParamsWrap.wrap] at hstep

include hsteps

/-- A value that was loaded from a generation saves the next one, whatever the file holds now. -/
lemma Passes.step_save {name : String} {w : Wrapped}
    (hname : ((start tree).after steps).held? name = some (.wrapped w)) :
    ∃ i j, loadedAt? ((start tree).log steps) name = some i ∧ j ≤ writes ((start tree).log steps) ∧
      ((start tree).after (steps.take i)).tree.Holds l (ParamsWrap.wrap^[j] t) ∧
      w.text = ParamsWrap.wrap^[j + 1] t ∧
      (((start tree).after steps).step (.save name)).1 = .held (.summary w.summary) ∧
      ((start tree).after steps).tree.Replaces l (ParamsWrap.wrap^[j + 1] t).encode
        (((start tree).after steps).step (.save name)).2.tree := by
  obtain ⟨i, j, d, hi, hj, hholds, hpath, htext, ⟨⟩⟩ := hpasses.exists_of_held hfile hsteps hname
  obtain ⟨_, _, hreplaces⟩ := hpasses.last
  have hwrapped : d.wrap.text = ParamsWrap.wrap^[j + 1] t := by
    rw [Function.iterate_succ_apply', ← htext]
    rfl
  have hdir : ((start tree).after steps).tree.entryAt? l ≠ some .dir := by
    rw [hreplaces.entryAt?_self]
    simp
  obtain ⟨hreply, hsaved⟩ := step_save_of_names hname (hpasses.names hfile hpath) hdir
  rw [hwrapped] at hsaved
  exact ⟨i, j, hi, hj, hholds, hwrapped, hreply, hsaved⟩

/-- After a step the file holds the generation that it held, or the one behind an earlier one. -/
lemma Passes.step {st : Step} (hst : st.EditsFile tree l) :
    ∃ j ≤ writes ((start tree).log (steps ++ [st])),
      tree.Replaces l (ParamsWrap.wrap^[j] t).encode ((start tree).after (steps ++ [st])).tree := by
  obtain ⟨j, hj, hreplaces⟩ := hpasses.last
  -- Only the two steps that save change the tree, and each of them counts as a write.
  have hsame (h : (((start tree).after steps).step st).2.tree = ((start tree).after steps).tree) :
      ∃ j ≤ writes ((start tree).log (steps ++ [st])),
        tree.Replaces l (ParamsWrap.wrap^[j] t).encode ((start tree).after (steps ++ [st])).tree := by
    rw [writes_log_concat, after_concat, h]
    exact ⟨j, hj.trans (Nat.le_add_right _ _), hreplaces⟩
  cases st with
  | put p content => exact hst.elim
  | append p content => exact hst.elim
  | makeDirs p => exact hst.elim
  | remove p => exact hst.elim
  | save name =>
    cases hname : ((start tree).after steps).held? name with
    | none => exact hsame (by simp only [Session.step, hname])
    | some h =>
      cases h with
      | snapshot d => exact hsame (by simp only [Session.step, hname])
      | summary r => exact hsame (by simp only [Session.step, hname])
      | wrapped w =>
        obtain ⟨_, j', _, hj', _, _, hreply, hsaved⟩ := hpasses.step_save hfile hsteps hname
        rw [writes_log_concat, after_concat, hreply]
        exact ⟨j' + 1, Nat.add_le_add_right hj' 1, hreplaces.trans hsaved⟩
  | wrapFile p name? =>
    obtain ⟨hreply, hsaved⟩ := hpasses.step_wrapFile hfile hst name? hreplaces.entryAt?_self
    rw [writes_log_concat, after_concat, hreply]
    exact ⟨j + 1, Nat.add_le_add_right hj 1, hreplaces.trans hsaved⟩
  | look p => exact hsame rfl
  | load p name => exact hsame (tree_step_of_not_changesTree rfl)
  | wrap name => exact hsame (tree_step_of_not_changesTree rfl)
  | peek name => exact hsame (tree_step_of_not_changesTree rfl)
  | copy name other => exact hsame (tree_step_of_not_changesTree rfl)
  | compare name other => exact hsame (tree_step_of_not_changesTree rfl)

lemma Passes.concat {st : Step} (hst : st.EditsFile tree l) : Passes tree l t (steps ++ [st]) := by
  intro i
  rcases Nat.lt_or_ge steps.length i with hlt | hle
  · rw [List.take_of_length_le (by simpa using Nat.succ_le_of_lt hlt)]
    exact hpasses.step hfile hsteps hst
  · rw [List.take_append_of_le_length hle]
    exact hpasses i

end Step

/-- Whatever order the steps of the edits are taken in, the file passes generations. -/
theorem passes_start (hfile : tree.Holds l t) (hsteps : ∀ step ∈ steps, step.EditsFile tree l) :
    Passes tree l t steps := by
  induction steps using List.reverseRecOn with
  | nil =>
    intro i
    rw [List.take_nil]
    exact ⟨0, Nat.zero_le _, hfile.replaces⟩
  | append_singleton steps step ih =>
    have hbefore : ∀ st ∈ steps, st.EditsFile tree l := fun st hst => hsteps st (List.mem_append_left _ hst)
    exact (ih hbefore).concat hfile hbefore (hsteps step (by simp))

/-! ### What the steps answer -/

section Reply

variable (hpasses : Passes tree l t steps) (hfile : tree.Holds l t) (hsteps : ∀ step ∈ steps, step.EditsFile tree l)
include hpasses hfile

lemma Passes.step_load {p : Path} (hp : tree.Names p l) (name : String) {j : Nat}
    (hholds : ((start tree).after steps).tree.Holds l (ParamsWrap.wrap^[j] t)) :
    (((start tree).after steps).step (.load p name)).1 = .held (.snapshot ⟨p, ParamsWrap.wrap^[j] t⟩) := by
  have hreads : ((start tree).after steps).tree.Reads p (ParamsWrap.wrap^[j] t) :=
    ⟨l, hpasses.names hfile hp, hholds⟩
  have hload := FileTree.load_eq_ok_iff (d := ⟨p, ParamsWrap.wrap^[j] t⟩).mpr ⟨rfl, rfl, hreads⟩
  simp only [Session.step, hload]

include hsteps

lemma Passes.counts_of_held {name : String} {h : Held} (hname : ((start tree).after steps).held? name = some h) :
    h.Counts (calls t).length := by
  obtain ⟨_, j, d, _, _, _, _, htext, hbecomes⟩ := hpasses.exists_of_held hfile hsteps hname
  exact hbecomes.counts htext

lemma Passes.isFailure_eq_false {st : Step} (hst : st.EditsFile tree l)
    (hoffers : ((start tree).after steps).Offers st) :
    (((start tree).after steps).step st).1.isFailure = false := by
  obtain ⟨j, _, hreplaces⟩ := hpasses.last
  cases st with
  | put p content => exact hst.elim
  | append p content => exact hst.elim
  | makeDirs p => exact hst.elim
  | remove p => exact hst.elim
  | look p => rfl
  | load p name =>
    rw [hpasses.step_load hfile hst name hreplaces.entryAt?_self]
    rfl
  | wrap name =>
    obtain ⟨d, hname⟩ := hoffers
    simp only [Session.step, hname]
    rfl
  | save name =>
    obtain ⟨w, hname⟩ := hoffers
    obtain ⟨_, _, _, _, _, _, hreply, _⟩ := hpasses.step_save hfile hsteps hname
    rw [hreply]
    rfl
  | wrapFile p name? =>
    rw [(hpasses.step_wrapFile hfile hst name? hreplaces.entryAt?_self).1]
    rfl
  | peek name =>
    obtain ⟨h, hname⟩ := hoffers
    simp only [Session.step, hname]
    rfl
  | copy name other =>
    obtain ⟨h, hname⟩ := hoffers
    simp only [Session.step, hname]
    rfl
  | compare name other =>
    obtain ⟨⟨h, hname⟩, h', hother⟩ := hoffers
    simp only [Session.step, hname, hother]
    rfl

/-- Every value that is answered counts the calls of the text at the beginning. -/
lemma Passes.counts_of_reply {st : Step} (hst : st.EditsFile tree l) {h : Held}
    (hreply : (((start tree).after steps).step st).1 = .held h) : h.Counts (calls t).length := by
  obtain ⟨j, _, hreplaces⟩ := hpasses.last
  cases st with
  | put p content => exact hst.elim
  | append p content => exact hst.elim
  | makeDirs p => exact hst.elim
  | remove p => exact hst.elim
  | look p => cases hreply
  | load p name =>
    rw [hpasses.step_load hfile hst name hreplaces.entryAt?_self] at hreply
    cases hreply
    exact trivial
  | wrap name =>
    simp only [Session.step] at hreply
    split at hreply
    · cases hreply
    · rename_i d hname
      cases hreply
      obtain ⟨_, _, _, _, _, _, _, htext, ⟨⟩⟩ := hpasses.exists_of_held hfile hsteps hname
      exact Snapshot.Becomes.wrapped.counts htext
    · cases hreply
  | save name =>
    cases hname : ((start tree).after steps).held? name with
    | none => simp [Session.step, hname] at hreply
    | some old =>
      cases old with
      | snapshot d => simp [Session.step, hname] at hreply
      | summary r => simp [Session.step, hname] at hreply
      | wrapped w =>
        obtain ⟨_, _, _, _, _, _, hsaved, _⟩ := hpasses.step_save hfile hsteps hname
        cases hsaved.symm.trans hreply
        have hcounts : (Held.wrapped w).Counts (calls t).length := hpasses.counts_of_held hfile hsteps hname
        exact hcounts
  | wrapFile p name? =>
    cases (hpasses.step_wrapFile hfile hst name? hreplaces.entryAt?_self).1.symm.trans hreply
    exact ⟨rfl, rfl⟩
  | peek name =>
    simp only [Session.step] at hreply
    split at hreply
    · cases hreply
    · rename_i old hname
      cases hreply
      exact hpasses.counts_of_held hfile hsteps hname
  | copy name other =>
    simp only [Session.step] at hreply
    split at hreply <;> cases hreply
  | compare name other =>
    simp only [Session.step] at hreply
    split at hreply <;> cases hreply

end Reply

end Session

/-- An interleaving of edits of one file, in which nobody else writes it. The file is at every moment the text of the
beginning, wrapped no more often than it was written, and whatever was loaded when it was wrapped `j` times saves it
wrapped `j + 1` times. No step fails that finds what it asks for under its names, and all steps tell the same number of
calls. -/
theorem file_passes_generations {tree : FileTree} {l : Location} {t : Text} (hfile : tree.Holds l t)
    {steps : List Step} (hsteps : ∀ step ∈ steps, step.EditsFile tree l) :
    let start := Session.start tree
    let s := start.after steps
    (∃ j ≤ writes (start.log steps), tree.Replaces l (wrap^[j] t).encode s.tree ∧
      ∀ p, tree.Names p l →
        (∀ name, (s.step (.load p name)).1 = .held (.snapshot ⟨p, wrap^[j] t⟩)) ∧
        ∀ name?, (s.step (.wrapFile p name?)).1 =
            .held (.summary ⟨p, (calls t).length, decide (0 < (calls t).length)⟩) ∧
          (s.step (.wrapFile p name?)).2.tree.Holds l (wrap^[j + 1] t)) ∧
    (∀ name d, s.held? name = some (.snapshot d) → ∃ i j, loadedAt? (start.log steps) name = some i ∧
      (start.after (steps.take i)).tree.Holds l (wrap^[j] t) ∧ d.text = wrap^[j] t) ∧
    (∀ name w, s.held? name = some (.wrapped w) → ∃ i j, loadedAt? (start.log steps) name = some i ∧
      (start.after (steps.take i)).tree.Holds l (wrap^[j] t) ∧ w.text = wrap^[j + 1] t ∧
      (s.step (.save name)).1 = .held (.summary ⟨w.path, w.count, w.changed⟩) ∧
      (s.step (.save name)).2.tree.Holds l (wrap^[j + 1] t)) ∧
    (∀ step, step.EditsFile tree l → s.Offers step → (s.step step).1.isFailure = false) ∧
    (∀ name h, s.held? name = some h → h.Counts (calls t).length) ∧
    (∀ step h, step.EditsFile tree l → (s.step step).1 = .held h → h.Counts (calls t).length) := by
  intro start s
  have hpasses := Session.passes_start hfile hsteps
  refine ⟨?_, ?_, ?_, ?_, ?_, ?_⟩
  · obtain ⟨j, hj, hreplaces⟩ := hpasses.last
    refine ⟨j, hj, hreplaces, fun p hp => ⟨?_, ?_⟩⟩
    · intro name
      exact hpasses.step_load hfile hp name hreplaces.entryAt?_self
    · intro name?
      obtain ⟨hreply, hsaved⟩ := hpasses.step_wrapFile hfile hp name? hreplaces.entryAt?_self
      exact ⟨hreply, hsaved.entryAt?_self⟩
  · intro name d hname
    obtain ⟨i, j, _, hi, _, hholds, _, htext, ⟨⟩⟩ := hpasses.exists_of_held hfile hsteps hname
    exact ⟨i, j, hi, hholds, htext⟩
  · intro name w hname
    obtain ⟨i, j, hi, _, hholds, htext, hreply, hsaved⟩ := hpasses.step_save hfile hsteps hname
    exact ⟨i, j, hi, hholds, htext, hreply, hsaved.entryAt?_self⟩
  · intro step hst hoffers
    exact hpasses.isFailure_eq_false hfile hsteps hst hoffers
  · intro name h hname
    exact hpasses.counts_of_held hfile hsteps hname
  · intro step h hst hreply
    exact hpasses.counts_of_reply hfile hsteps hst hreply

/-- A copy that is two generations older than what the file holds puts the one behind its own there. -/
theorem file_passes_generations_of_stale_copy :
    let p : Path := ⟨[0x76]⟩
    let l : Location := [FileTree.homeName, [0x76]]
    let t : Text := marker ++ ['(', '"', 'q', '"', ',', ' ', 'x', ')']
    let tree := (FileTree.fresh.write p t.encode).2
    let steps : List Step := [.load p "a", .copy "a" "b", .wrap "a", .save "a", .wrapFile p none, .wrap "b"]
    tree.Holds l t ∧ (∀ step ∈ steps, step.EditsFile tree l) ∧
      ((Session.start tree).after steps).tree.Holds l (wrap^[2] t) ∧
      (((Session.start tree).after steps).step (.save "b")).2.tree.Holds l (wrap^[1] t) ∧
      wrap^[2] t ≠ wrap^[1] t := by
  intro p l t tree steps
  have hentry : tree.entryAt? l = some (.file t.encode) := by decide +kernel
  have hfile : tree.Holds l t := hentry
  have hplace : tree.place p = .ok (.name [FileTree.homeName] [0x76] (by decide)) := by decide +kernel
  have hp : tree.Names p l :=
    FileTree.names_iff.mpr ⟨by decide, _, _, _, hplace, by decide +kernel, by decide, rfl⟩
  have hsteps : ∀ step ∈ steps, step.EditsFile tree l := by
    simp only [steps, List.forall_mem_cons]
    exact ⟨hp, trivial, trivial, trivial, hp, trivial, by simp⟩
  have htwice : ((Session.start tree).after steps).tree.entryAt? l = some (.file (Text.encode (wrap^[2] t))) := by
    decide +kernel
  have hstale : ((Session.start tree).after steps).held? "b" = some (.wrapped ⟨p, wrap^[1] t, 1, true⟩) := by
    decide +kernel
  have hne : wrap^[2] t ≠ wrap^[1] t := by decide +kernel
  obtain ⟨_, _, hwrapped, _⟩ := file_passes_generations hfile hsteps
  obtain ⟨_, _, _, _, htext, _, hnow⟩ := hwrapped "b" _ hstale
  rw [← htext] at hnow
  exact ⟨hfile, hsteps, htwice, hnow, hne⟩

end ParamsWrap
