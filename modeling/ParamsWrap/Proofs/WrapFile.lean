import ParamsWrap.Edit.Session
import ParamsWrap.Proofs.Resolution
import ParamsWrap.Proofs.Rewrapping

/-!
# Wrapping a file

A file is wrapped exactly when it can be read as text: a path that can be read can be written, so that
nothing fails behind the loading. Then the one entry that is touched is the file that the path names.
-/

namespace ParamsWrap

variable {tree tree' : FileTree} {p : Path}

/-- The path leads to a file that holds the text. -/
def FileTree.Reads (tree : FileTree) (p : Path) (t : Text) : Prop :=
  ∃ l, tree.Names p l ∧ tree.Holds l t

lemma FileTree.Reads.read_eq {t : Text} (h : tree.Reads p t) : tree.read p = .ok t.encode := by
  obtain ⟨l, hnames, hholds⟩ := h
  exact read_eq_ok_iff.mpr ⟨l, hnames, hholds⟩

/-! ### The stages of an edit -/

lemma FileTree.load_eq_ok_iff {d : Snapshot} :
    tree.load p = (.ok d, tree') ↔ tree' = tree ∧ d.path = p ∧ tree.Reads p d.text := by
  rw [load_eq, Prod.mk.injEq]
  constructor
  · rintro ⟨h, rfl⟩
    split at h
    · cases h
    · rename_i content hread
      split at h
      · rename_i t hdecode
        cases h
        obtain ⟨l, hnames, hentry⟩ := read_eq_ok_iff.mp hread
        rw [Text.decode?_eq_some_iff] at hdecode
        exact ⟨rfl, rfl, l, hnames, by rw [Holds, hentry, hdecode]⟩
      · cases h
  · rintro ⟨rfl, rfl, h⟩
    simp [h.read_eq, Text.decode?_encode]

lemma FileTree.load_eq_error_iff {e : EditError} : tree.load p = (.error e, tree') ↔ tree' = tree ∧
    ((∃ f, tree.read p = .error f ∧ e = .ofRead p f) ∨
      (∃ content, tree.read p = .ok content ∧ (∀ t : Text, content ≠ t.encode) ∧ e = .io p .notUtf8)) := by
  rw [load_eq, Prod.mk.injEq, and_comm, @eq_comm _ tree]
  refine and_congr_right fun _ => ?_
  cases hread : tree.read p with
  | error f => simp [eq_comm]
  | ok content =>
    have hdecode : Text.decode? content = none ↔ ∀ t : Text, content ≠ t.encode := by
      simp only [Option.eq_none_iff_forall_ne_some, ne_eq, Text.decode?_eq_some_iff]
    cases h : Text.decode? content with
    | none =>
      have hnone := hdecode.mp h
      simp [h, EditError.ofRead, hnone, eq_comm]
    | some t =>
      have hsome : ¬ ∀ t : Text, content ≠ t.encode := by
        rw [← hdecode, h]
        exact Option.some_ne_none t
      simp only [h]
      simp [hsome]

/-- Loading changes nothing, whether there is a text or not. -/
lemma FileTree.load_snd (tree : FileTree) (p : Path) : (tree.load p).2 = tree := by
  rw [load_eq]

lemma Snapshot.wrap_changed (d : Snapshot) : d.wrap.changed = decide (0 < d.wrap.count) := by
  have hchanged : ParamsWrap.wrap d.text ≠ d.text ↔ 0 < (calls d.text).length := by
    rw [Ne, wrap_eq_self_iff, List.length_pos_iff]
  exact decide_eq_decide.mpr hchanged

/-- Whether anything was wrapped is told in one way by all that tells it: by the new text that there is or is not, by
the calls, by a comparison of the texts, by the count and by the flag. A new text is never the old one. -/
theorem Snapshot.wrap_unchanged_iff (d : Snapshot) :
    (wrap? d.text = none ↔ calls d.text = []) ∧ (calls d.text = [] ↔ ParamsWrap.wrap d.text = d.text) ∧
    (calls d.text = [] ↔ d.wrap.count = 0) ∧ (calls d.text = [] ↔ d.wrap.changed = false) ∧
    (∀ u, wrap? d.text = some u → u ≠ d.text ∧ d.wrap = ⟨d.path, u, (calls d.text).length, true⟩) ∧
    d.wrap.text = ParamsWrap.wrap d.text ∧ d.wrap.text = (wrap? d.text).getD d.text ∧ d.wrap.path = d.path := by
  have hcount : calls d.text = [] ↔ d.wrap.count = 0 := List.length_eq_zero_iff.symm
  have hflag : calls d.text = [] ↔ d.wrap.changed = false := by
    rw [d.wrap_changed, decide_eq_false_iff_not, Nat.not_lt, Nat.le_zero, hcount]
  refine ⟨?_, wrap_eq_self_iff.symm, hcount, hflag, ?_, rfl, ?_, rfl⟩
  · simp [wrap?_eq]
  · intro u hu
    obtain ⟨hcalls, rfl⟩ : calls d.text ≠ [] ∧ ParamsWrap.wrap d.text = u := by simpa [wrap?_eq] using hu
    have hne : ParamsWrap.wrap d.text ≠ d.text := by rwa [Ne, wrap_eq_self_iff]
    refine ⟨hne, ?_⟩
    rw [wrap, decide_eq_true hne]
  · by_cases hnone : calls d.text = []
    · rw [wrap?_eq, if_pos hnone]
      exact wrap_eq_self_iff.mpr hnone
    · rw [wrap?_eq, if_neg hnone]
      rfl

/-- The new text may be as long as the old one. -/
example :
    let t : Text := Site.opening ++ List.replicate 15 ' ' ++ ['"', 'q', '"', ',', 'x', ')']
    (wrap t).size = t.size ∧ wrap t ≠ t := by
  decide +kernel

lemma FileTree.exists_save_eq_ok {w : Wrapped} {l : Location} (hnames : tree.Names w.path l)
    (hdir : tree.entryAt? l ≠ some .dir) :
    ∃ tree', tree.save w = (.ok w.summary, tree') ∧ tree.Replaces l w.text.encode tree' := by
  obtain ⟨tree', hwrite, hreplaces⟩ := exists_write_eq_ok hnames hdir w.content
  exact ⟨tree', by rw [save_eq, hwrite], hreplaces⟩

lemma FileTree.save_eq_ok {w : Wrapped} {r : Summary} (h : tree.save w = (.ok r, tree')) : r = w.summary ∧
    ∃ l, tree.Names w.path l ∧ tree.entryAt? l ≠ some .dir ∧ tree.Replaces l w.text.encode tree' := by
  rw [save_eq] at h
  split at h
  · cases h
  · rename_i hwrite
    cases h
    exact ⟨rfl, write_eq_ok hwrite⟩

lemma FileTree.save_eq_error_iff {w : Wrapped} {e : EditError} : tree.save w = (.error e, tree') ↔
    tree' = tree ∧ ∃ f, tree.target w.path = .error f ∧ e = .io w.path f := by
  constructor
  · intro h
    rw [save_eq] at h
    split at h
    · rename_i f after hwrite
      cases h
      obtain ⟨htarget, rfl⟩ := write_eq_error_iff.mp hwrite
      exact ⟨rfl, f, htarget, rfl⟩
    · cases h
  · rintro ⟨rfl, f, htarget, rfl⟩
    rw [save_eq, write_eq_error_iff.mpr ⟨htarget, rfl⟩]

/-- A path that can be read can be written. -/
lemma FileTree.exists_wrapFile_eq_ok {l : Location} {t : Text} (hnames : tree.Names p l) (hholds : tree.Holds l t) :
    ∃ tree', tree.wrapFile p = (.ok (Snapshot.wrap ⟨p, t⟩).summary, tree') ∧
      tree.Replaces l (wrap t).encode tree' := by
  have hload : tree.load p = (.ok ⟨p, t⟩, tree) := load_eq_ok_iff.mpr ⟨rfl, rfl, l, hnames, hholds⟩
  obtain ⟨tree', hsave, hreplaces⟩ := exists_save_eq_ok (w := Snapshot.wrap ⟨p, t⟩) hnames hholds.ne_dir
  have hwrap : tree.wrapFile p = tree.save (Snapshot.wrap ⟨p, t⟩) := by rw [wrapFile_eq, hload]
  exact ⟨tree', hwrap.trans hsave, hreplaces⟩

/-- Behind the loading nothing can fail. -/
lemma FileTree.wrapFile_eq_error_iff {e : EditError} :
    tree.wrapFile p = (.error e, tree') ↔ tree.load p = (.error e, tree') := by
  constructor
  · intro h
    rw [wrapFile_eq] at h
    split at h
    · rename_i hload
      cases h
      exact hload
    · rename_i d after hload
      obtain ⟨rfl, rfl, l, hnames, hholds⟩ := load_eq_ok_iff.mp hload
      obtain ⟨_, hsave, _⟩ := exists_save_eq_ok (w := d.wrap) hnames hholds.ne_dir
      cases h.symm.trans hsave
  · intro h
    rw [wrapFile_eq, h]

lemma FileTree.eq_of_wrapFile_eq_error {e : EditError} (h : tree.wrapFile p = (.error e, tree')) : tree' = tree :=
  (load_eq_error_iff.mp (wrapFile_eq_error_iff.mp h)).1

lemma FileTree.wrapFile_eq_ok {r : Summary} (h : tree.wrapFile p = (.ok r, tree')) :
    ∃ l t, tree.Names p l ∧ tree.Holds l t ∧ r = (Snapshot.wrap ⟨p, t⟩).summary ∧
      tree.Replaces l (wrap t).encode tree' := by
  cases hload : tree.load p with
  | mk result after =>
    cases result with
    | error e =>
      rw [wrapFile_eq_error_iff.mpr hload] at h
      cases h
    | ok d =>
      obtain ⟨rfl, rfl, l, hnames, hholds⟩ := load_eq_ok_iff.mp hload
      obtain ⟨_, hwrap, hreplaces⟩ := exists_wrapFile_eq_ok hnames hholds
      cases h.symm.trans hwrap
      exact ⟨l, d.text, hnames, hholds, rfl, hreplaces⟩

lemma FileTree.exists_wrapFile_iff : (∃ r tree', tree.wrapFile p = (.ok r, tree')) ↔ ∃ t, tree.Reads p t := by
  constructor
  · rintro ⟨r, tree', h⟩
    obtain ⟨l, t, hnames, hholds, _⟩ := wrapFile_eq_ok h
    exact ⟨t, l, hnames, hholds⟩
  · rintro ⟨t, l, hnames, hholds⟩
    obtain ⟨tree', hwrap, _⟩ := exists_wrapFile_eq_ok hnames hholds
    exact ⟨_, tree', hwrap⟩

/-- What was written can be read again. -/
lemma FileTree.Replaces.reads {l : Location} {t u : Text} (h : tree.Replaces l u.encode tree')
    (hnames : tree.Names p l) (hholds : tree.Holds l t) : tree'.Reads p u :=
  ⟨l, h.names hholds.ne_dir hnames, h.entryAt?_self⟩

/-- The bytes outside of the calls are those of the gaps. -/
lemma map_drop_take_encode_outside (t : Text) :
    (outside 0 t.size (calls t)).map (fun span => (t.encode.take span.2).drop span.1) =
      (gaps t).map Text.encode := by
  apply List.map_injective_iff.mpr (fun _ _ => Option.some.inj)
  have hslices := congrArg (List.map (Option.map Text.encode)) (map_slice?_outside t)
  rw [List.map_map, List.map_map] at hslices
  rw [List.map_map, List.map_map]
  refine Eq.trans (List.map_congr_left ?_) hslices
  intro span hspan
  have hmem : t.slice? span.1 span.2 ∈ (gaps t).map some := by
    rw [← map_slice?_outside]
    exact List.mem_map_of_mem hspan
  obtain ⟨u, _, hu⟩ := List.mem_map.mp hmem
  simp [← hu, Text.drop_take_encode_of_slice? hu.symm]

lemma EditError.ofRead_path (p : Path) (f : Fault) : (EditError.ofRead p f).path = p := by
  cases f <;> rfl

lemma EditError.ofRead_eq_fileNotFound_iff {f : Fault} : EditError.ofRead p f = .fileNotFound p ↔ f = .notFound := by
  cases f <;> simp [EditError.ofRead]

lemma EditError.ofRead_of_ne {f : Fault} (h : f ≠ .notFound) : EditError.ofRead p f = .io p f := by
  unfold EditError.ofRead
  split
  · exact absurd rfl h
  · rfl

/-- A file is wrapped exactly when its path leads to a text. Then the bytes of its calls are replaced and
nothing else is touched, and it can be wrapped again. In all other cases the tree that is left is the same, and
the error tells the path and what stood in the way of reading. -/
theorem wrapFile_replaces_iff_reads (tree : FileTree) (p : Path) :
    ((∃ r tree', tree.wrapFile p = (.ok r, tree')) ↔ ∃ t, tree.Reads p t) ∧
    (∀ r tree', tree.wrapFile p = (.ok r, tree') → ∃ l t, tree.Names p l ∧ tree.Holds l t ∧
      tree.Replaces l (wrap t).encode tree' ∧
      (outside 0 t.size (calls t)).map (fun span => (t.encode.take span.2).drop span.1) =
        (gaps t).map Text.encode ∧
      t = weave (gaps t) ((calls t).map Call.text) ∧ wrap t = weave (gaps t) ((calls t).map Call.wrapped) ∧
      r.file = p ∧ r.count = (calls t).length ∧ (r.changed = true ↔ (wrap t).encode ≠ t.encode) ∧
      ∃ r' tree'', tree'.wrapFile p = (.ok r', tree'')) ∧
    (∀ e tree', tree.wrapFile p = (.error e, tree') → tree' = tree ∧ e.path = p ∧
      (e = .fileNotFound p ↔ tree.read p = .error .notFound) ∧
      (tree.read p ≠ .error .notFound → ∃ f, e = .io p f ∧ (tree.read p = .error f ∨
        f = .notUtf8 ∧ ∃ content, tree.read p = .ok content ∧ ∀ t : Text, content ≠ t.encode))) := by
  refine ⟨FileTree.exists_wrapFile_iff, ?_, ?_⟩
  · intro r tree' h
    obtain ⟨l, t, hnames, hholds, rfl, hreplaces⟩ := FileTree.wrapFile_eq_ok h
    refine ⟨l, t, hnames, hholds, hreplaces, map_drop_take_encode_outside t, (weave_text t).symm,
      (weave_wrapped t).symm, rfl, rfl, ?_, ?_⟩
    · rw [Text.encode_injective.ne_iff]
      exact decide_eq_true_iff
    · exact FileTree.exists_wrapFile_iff.mpr ⟨_, hreplaces.reads hnames hholds⟩
  · intro e tree' h
    rw [FileTree.wrapFile_eq_error_iff, FileTree.load_eq_error_iff] at h
    -- Either the file could not be read, or its bytes are not those of a text.
    obtain ⟨rfl, ⟨f, hread, rfl⟩ | ⟨content, hread, hnone, rfl⟩⟩ := h
    · refine ⟨rfl, EditError.ofRead_path p f, ?_, ?_⟩
      · rw [EditError.ofRead_eq_fileNotFound_iff, hread, Except.error.injEq]
      · intro hne
        rw [hread, Ne, Except.error.injEq] at hne
        exact ⟨f, EditError.ofRead_of_ne hne, .inl hread⟩
    · refine ⟨rfl, rfl, ?_, ?_⟩
      · rw [hread]
        simp
      · intro _
        exact ⟨.notUtf8, rfl, .inr ⟨rfl, content, hread, hnone⟩⟩

end ParamsWrap
