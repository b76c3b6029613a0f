import ParamsWrap.Proofs.WrapFile

/-!
# Saving into a changed tree

What was loaded from a path can be saved there later, whatever became of the tree meanwhile. Since the path was
walked before, it is accepted and none of its names is too long. All that saving then asks for is that the names
before the last still lead to a directory, and that no directory has taken the place of the file; the file itself
may be gone. The working directory may be gone too, and then only the way up leads out of it. Where saving fails,
the first name at which the walk stops decides the fault.
-/

namespace ParamsWrap

/-- The path is accepted by every tree as that of a file: what it leads through, and the name of the file. -/
structure Path.Accepted (p : Path) (front : List Name) (last : Name) : Prop where
  zero_not_mem : 0 ∉ p.bytes
  length_le : p.bytes.length ≤ longestPath
  endsInSlash_eq : p.endsInSlash = false
  names_eq : p.names = front ++ [last]
  isProper : last.IsProper
  length_name_le : ∀ n ∈ p.names, n.length ≤ longestName

namespace FileTree

/-- The walk along the names to the place of a file stops, and this is the fault: a name is looked up in a directory
that is gone, a name that more names follow is that of nothing or of a file, or the last name is that of a directory. -/
inductive Obstructs (tree : FileTree) : Location → List Name → Fault → Prop
  | gone {l : Location} {n : Name} {rest : List Name} (hn : n.IsProper) (hdir : tree.entryAt? l ≠ some .dir) :
      Obstructs tree l (n :: rest) .notFound
  | missing {l : Location} {n : Name} {rest : List Name} (hrest : rest ≠ []) (hn : n.IsProper)
      (hentry : tree.entryAt? (l ++ [n]) = none) : Obstructs tree l (n :: rest) .notFound
  | file {l : Location} {n : Name} {rest : List Name} {content : Bytes} (hrest : rest ≠ []) (hn : n.IsProper)
      (hentry : tree.entryAt? (l ++ [n]) = some (.file content)) : Obstructs tree l (n :: rest) .notDirectory
  | directory {l : Location} {n : Name} (hentry : tree.entryAt? (l ++ [n]) = some .dir) :
      Obstructs tree l [n] .isDirectory
  | enter {l m : Location} {n : Name} {rest : List Name} {f : Fault} (hn : tree.Enters l n m)
      (hrest : Obstructs tree m rest f) : Obstructs tree l (n :: rest) f

variable {tree : FileTree} {p : Path} {front : List Name} {last : Name}

/-! ### Paths that were walked before -/

lemma Leads.length_name_le {l k : Location} {names : List Name} (h : tree.Leads l names k) :
    ∀ n ∈ names, n.length ≤ longestName := by
  induction h with
  | stay l => simp
  | enter hn _ ih =>
    intro n hmem
    rcases List.mem_cons.mp hmem with rfl | hmem
    · cases hn with
      | stay hn habove =>
        -- Of the names that are not looked up none is long.
        by_contra hlong
        exact hn ⟨by rintro rfl; exact hlong (by decide), by rintro rfl; exact hlong (by decide), habove⟩
      | above => decide
      | down _ hlen _ => exact hlen
    · exact ih n hmem

lemma Names.accepted {l : Location} (h : tree.Names p l) : ∃ front last, p.Accepted front last := by
  obtain ⟨hzero, hlen, hslash, front, parent, last, hnames, hleads, _, hlast, hshort, _⟩ := h
  refine ⟨front, last, hzero, hlen, hslash, hnames, hlast, ?_⟩
  intro n hmem
  rw [hnames, List.mem_append, List.mem_singleton] at hmem
  rcases hmem with hmem | rfl
  · exact hleads.length_name_le n hmem
  · exact hshort

lemma names_iff_of_accepted (h : p.Accepted front last) {l : Location} :
    tree.Names p l ↔
      ∃ parent, tree.Leads (tree.origin p) front parent ∧ tree.entryAt? parent = some .dir ∧ l = parent ++ [last] := by
  constructor
  · rintro ⟨_, _, _, front', parent, last', hnames, hleads, hparent, _, _, rfl⟩
    obtain ⟨rfl, hlast⟩ := List.append_inj' (h.names_eq.symm.trans hnames) rfl
    exact ⟨parent, hleads, hparent, by rw [hlast]⟩
  · rintro ⟨parent, hleads, hparent, rfl⟩
    have hlast : last.length ≤ longestName := h.length_name_le last (by simp [h.names_eq])
    exact ⟨h.zero_not_mem, h.length_le, h.endsInSlash_eq, front, parent, last, h.names_eq, hleads, hparent, h.isProper,
      hlast, rfl⟩

/-! ### Where a walk stops -/

lemma entryAt?_concat_eq_none {l : Location} {n : Name} (h : tree.entryAt? l ≠ some .dir) :
    tree.entryAt? (l ++ [n]) = none := by
  cases hentry : tree.entryAt? (l ++ [n]) with
  | none => rfl
  | some e => exact absurd (entryAt?_eq_dir_of_concat hentry) h

/-- In a directory that is gone no name is found. -/
lemma lookUp_eq_error_iff {l : Location} {n : Name} {f : Fault} (hlen : n.length ≤ longestName) :
    tree.lookUp l n = .error f ↔ tree.entryAt? (l ++ [n]) = none ∧ f = .notFound := by
  by_cases hdir : tree.entryAt? l = some .dir
  · cases hentry : tree.entryAt? (l ++ [n]) <;> simp [lookUp, hdir, Nat.not_lt.mpr hlen, hentry, eq_comm]
  · simp [lookUp, hdir, entryAt?_concat_eq_none hdir, eq_comm]

lemma enter_eq_error_iff {l : Location} {n : Name} {f : Fault} (hlen : n.length ≤ longestName) :
    tree.enter l n = .error f ↔ n.IsProper ∧
      (tree.entryAt? (l ++ [n]) = none ∧ f = .notFound ∨
        (∃ content, tree.entryAt? (l ++ [n]) = some (.file content)) ∧ f = .notDirectory) := by
  by_cases hn : n.IsProper
  · rw [enter, if_neg hn.ne_above, if_pos hn, ← lookUp_eq_error_iff hlen]
    cases hlook : tree.lookUp l n with
    | error g =>
      obtain ⟨hnone, rfl⟩ := (lookUp_eq_error_iff hlen).mp hlook
      simp [hn, hnone]
    | ok e =>
      obtain ⟨_, hentry⟩ := lookUp_eq_ok_iff.mp hlook
      cases e with
      | dir => simp [hentry]
      | file content => simp [hn, hentry, eq_comm]
  · rw [enter, if_neg hn]
    split <;> simp [hn]

lemma obstructs_cons_iff {l : Location} {n : Name} {rest : List Name} {f : Fault} (hlen : n.length ≤ longestName)
    (hrest : rest ≠ []) :
    tree.Obstructs l (n :: rest) f ↔
      tree.enter l n = .error f ∨ ∃ m, tree.Enters l n m ∧ tree.Obstructs m rest f := by
  rw [enter_eq_error_iff hlen]
  constructor
  · intro h
    cases h with
    | gone hn hdir => exact .inl ⟨hn, .inl ⟨entryAt?_concat_eq_none hdir, rfl⟩⟩
    | missing _ hn hentry => exact .inl ⟨hn, .inl ⟨hentry, rfl⟩⟩
    | file _ hn hentry => exact .inl ⟨hn, .inr ⟨⟨_, hentry⟩, rfl⟩⟩
    | directory => exact absurd rfl hrest
    | enter hn hmore => exact .inr ⟨_, hn, hmore⟩
  · rintro (⟨hn, ⟨hentry, rfl⟩ | ⟨⟨content, hentry⟩, rfl⟩⟩ | ⟨m, hn, hmore⟩)
    · exact .missing hrest hn hentry
    · exact .file hrest hn hentry
    · exact .enter hn hmore

/-- What stands in the way of a file whose directory was reached: that is gone, or the file is a directory. -/
lemma obstructs_singleton_iff {l : Location} {f : Fault} (hlast : last.IsProper) :
    tree.Obstructs l [last] f ↔ tree.entryAt? l ≠ some .dir ∧ f = .notFound ∨
      tree.entryAt? (l ++ [last]) = some .dir ∧ f = .isDirectory := by
  constructor
  · intro h
    cases h with
    | gone _ hdir => exact .inl ⟨hdir, rfl⟩
    | missing hrest => exact absurd rfl hrest
    | file hrest => exact absurd rfl hrest
    | directory hentry => exact .inr ⟨hentry, rfl⟩
    | enter _ hmore => cases hmore
  · rintro (⟨hdir, rfl⟩ | ⟨hentry, rfl⟩)
    · exact .gone hlast hdir
    · exact .directory hentry

/-- The walk fails at a name before the last, or the last name is obstructed where the walk ends. -/
lemma obstructs_concat_iff {l : Location} {f : Fault} (hlast : last.IsProper)
    (hlen : ∀ n ∈ front, n.length ≤ longestName) :
    tree.Obstructs l (front ++ [last]) f ↔ tree.walk l (front ++ [last]) = .error f ∨
      ∃ parent, tree.walk l (front ++ [last]) = .ok (.name parent last hlast) ∧ tree.Obstructs parent [last] f := by
  induction front generalizing l with
  | nil => simp [walk, hlast]
  | cons n front ih =>
    rw [List.forall_mem_cons] at hlen
    -- The first name stops the walk, or leads to where the rest of the walk begins.
    rw [List.cons_append, obstructs_cons_iff hlen.1 (by simp), walk_cons_concat]
    cases henter : tree.enter l n with
    | error g => simp [Except.bind, not_enters_of_enter_eq_error henter]
    | ok k => simp [Except.bind, enters_iff_of_enter_eq_ok henter, ih hlen.2]

/-- A walk that does not stop ends before its last name. -/
lemma exists_of_walk_concat_eq_ok {l : Location} {place : Place} (hlast : last.IsProper)
    (hwalk : tree.walk l (front ++ [last]) = .ok place) : ∃ parent, place = .name parent last hlast := by
  induction front generalizing l with
  | nil =>
    rw [List.nil_append, walk, dif_pos ⟨hlast, rfl⟩] at hwalk
    cases hwalk
    exact ⟨l, rfl⟩
  | cons n front ih =>
    rw [List.cons_append, walk_cons_concat] at hwalk
    cases henter : tree.enter l n with
    | error f =>
      rw [henter] at hwalk
      cases hwalk
    | ok m =>
      rw [henter] at hwalk
      exact ih hwalk

lemma target_eq_error_iff (h : p.Accepted front last) {f : Fault} :
    tree.target p = .error f ↔ tree.Obstructs (tree.origin p) p.names f := by
  have hlen := h.length_name_le
  rw [h.names_eq, List.forall_mem_append, List.forall_mem_singleton] at hlen
  rw [h.names_eq, obstructs_concat_iff h.isProper hlen.1, target,
    place_eq_walk h.zero_not_mem h.length_le h.names_eq]
  cases hwalk : tree.walk (tree.origin p) (front ++ [last]) with
  | error g => simp
  | ok place =>
    obtain ⟨parent, rfl⟩ := exists_of_walk_concat_eq_ok h.isProper hwalk
    by_cases hparent : tree.entryAt? parent = some .dir
    · by_cases hdir : tree.entryAt? (parent ++ [last]) = some .dir
      · simp [obstructs_singleton_iff h.isProper, h.endsInSlash_eq, hparent, Nat.not_lt.mpr hlen.2, hdir,
          @eq_comm _ f]
      · simp [obstructs_singleton_iff h.isProper, h.endsInSlash_eq, hparent, Nat.not_lt.mpr hlen.2, hdir]
    · simp [obstructs_singleton_iff h.isProper, h.endsInSlash_eq, hparent, entryAt?_concat_eq_none hparent,
        @eq_comm _ f]

lemma Obstructs.fault_mem {l : Location} {names : List Name} {f : Fault} (h : tree.Obstructs l names f) :
    f = .notFound ∨ f = .notDirectory ∨ f = .isDirectory := by
  induction h with
  | gone => exact .inl rfl
  | missing => exact .inl rfl
  | file => exact .inr (.inl rfl)
  | directory => exact .inr (.inr rfl)
  | enter _ _ ih => exact ih

/-- Where nothing is found to be read, either the way there is missing, or only the file is and can be made. -/
lemma eq_notFound_of_find_of_obstructs (h : p.Accepted front last) {f : Fault}
    (hfind : tree.find p = .error .notFound) (hobstructs : tree.Obstructs (tree.origin p) p.names f) :
    f = .notFound := by
  have hlen := h.length_name_le
  rw [h.names_eq, List.forall_mem_append, List.forall_mem_singleton] at hlen
  rw [h.names_eq, obstructs_concat_iff h.isProper hlen.1,
    ← place_eq_walk h.zero_not_mem h.length_le h.names_eq] at hobstructs
  rcases hobstructs with hplace | ⟨parent, hplace, hlast⟩
  · simp only [find, hplace] at hfind
    cases hfind
    rfl
  · rcases (obstructs_singleton_iff h.isProper).mp hlast with ⟨_, rfl⟩ | ⟨hdir, _⟩
    · rfl
    · have hlook : tree.lookUp parent last = .ok .dir := lookUp_eq_ok_iff.mpr ⟨hlen.2, hdir⟩
      simp [find, hplace, hlook] at hfind

lemma read_eq_notFound_iff : tree.read p = .error .notFound ↔ tree.find p = .error .notFound := by
  unfold read
  split
  · simp_all
  · simp_all
  · simp_all

end FileTree

/-! ### Saving -/

lemma FileTree.load_eq_fileNotFound_iff {tree : FileTree} {p q : Path} :
    (tree.load p).1 = .error (.fileNotFound q) ↔ q = p ∧ tree.find p = .error .notFound := by
  rw [← read_eq_notFound_iff]
  constructor
  · intro h
    have hload : tree.load p = (.error (.fileNotFound q), tree) := Prod.ext h (tree.load_snd p)
    obtain ⟨_, ⟨f, hread, hf⟩ | ⟨_, _, _, hf⟩⟩ := load_eq_error_iff.mp hload
    · obtain rfl : q = p := (congrArg EditError.path hf).trans (EditError.ofRead_path p f)
      rw [EditError.ofRead_eq_fileNotFound_iff.mp hf.symm] at hread
      exact ⟨rfl, hread⟩
    · cases hf
  · rintro ⟨rfl, hread⟩
    rw [load_eq_error_iff.mpr ⟨rfl, .inl ⟨.notFound, hread, rfl⟩⟩]
    rfl

/-- What was loaded from a path and wrapped can be saved in any tree in which the names before the last still lead
to a directory, and no directory is in the place of the file. Then that one file is made or replaced, and loading it
gives the saved text. In all other trees saving tells the path and the fault of the name at which the walk stops, also
where loading finds no file, and the tree that is left is the same. -/
theorem saves_iff_leads_of_loaded {old old' : FileTree} {p : Path} {d : Snapshot}
    (hload : old.load p = (.ok d, old')) (tree : FileTree) :
    ∃ front last, p.names = front ++ [last] ∧
    ((∃ r tree', tree.save d.wrap = (.ok r, tree')) ↔
      ∃ parent, tree.Leads (tree.origin p) front parent ∧ tree.entryAt? parent = some .dir ∧
        tree.entryAt? (parent ++ [last]) ≠ some .dir) ∧
    (∀ r tree', tree.save d.wrap = (.ok r, tree') → r = ⟨p, d.wrap.count, d.wrap.changed⟩ ∧
      (∃ parent, tree.Leads (tree.origin p) front parent ∧
        tree.Replaces (parent ++ [last]) d.wrap.text.encode tree') ∧
      tree'.load p = (.ok ⟨p, d.wrap.text⟩, tree')) ∧
    (∀ e, (∃ tree', tree.save d.wrap = (.error e, tree')) ↔
      ∃ f, tree.Obstructs (tree.origin p) p.names f ∧ e = .io p f) ∧
    (∀ e tree', tree.save d.wrap = (.error e, tree') → tree' = tree ∧
      (e = .io p .notFound ∨ e = .io p .notDirectory ∨ e = .io p .isDirectory) ∧
      ((tree.load p).1 = .error (.fileNotFound p) → e = .io p .notFound)) := by
  obtain ⟨rfl, rfl, _, hold, _⟩ := FileTree.load_eq_ok_iff.mp hload
  obtain ⟨front, last, haccepted⟩ := hold.accepted
  have hnames : ∀ l, tree.Names d.path l ↔ ∃ parent, tree.Leads (tree.origin d.path) front parent ∧
      tree.entryAt? parent = some .dir ∧ l = parent ++ [last] :=
    fun l => FileTree.names_iff_of_accepted haccepted
  have hfails : ∀ e tree', tree.save d.wrap = (.error e, tree') ↔
      tree' = tree ∧ ∃ f, tree.Obstructs (tree.origin d.path) d.path.names f ∧ e = .io d.path f := by
    intro e tree'
    simp only [FileTree.save_eq_error_iff, ← FileTree.target_eq_error_iff haccepted]
    rfl
  refine ⟨front, last, haccepted.names_eq, ?_, ?_, ?_, ?_⟩
  · constructor
    · rintro ⟨r, tree', hsave⟩
      obtain ⟨_, l, hl, hdir, _⟩ := FileTree.save_eq_ok hsave
      obtain ⟨parent, hleads, hparent, rfl⟩ := (hnames l).mp hl
      exact ⟨parent, hleads, hparent, hdir⟩
    · rintro ⟨parent, hleads, hparent, hdir⟩
      obtain ⟨tree', hsave, _⟩ :=
        FileTree.exists_save_eq_ok (w := d.wrap) ((hnames _).mpr ⟨parent, hleads, hparent, rfl⟩) hdir
      exact ⟨_, tree', hsave⟩
  · intro r tree' hsave
    obtain ⟨rfl, l, hl, hdir, hreplaces⟩ := FileTree.save_eq_ok hsave
    refine ⟨rfl, ?_, ?_⟩
    · obtain ⟨parent, hleads, _, rfl⟩ := (hnames l).mp hl
      exact ⟨parent, hleads, hreplaces⟩
    · exact FileTree.load_eq_ok_iff.mpr ⟨rfl, rfl, l, hreplaces.names hdir hl, hreplaces.entryAt?_self⟩
  · intro e
    simp only [hfails, exists_and_right, exists_eq, true_and]
  · intro e tree' hsave
    obtain ⟨rfl, f, hobstructs, rfl⟩ := (hfails e tree').mp hsave
    refine ⟨rfl, ?_, ?_⟩
    · simpa using hobstructs.fault_mem
    · -- Reading walks the same way, so what it misses is a directory: the file alone could be made.
      intro hmissing
      obtain ⟨_, hfind⟩ := FileTree.load_eq_fileNotFound_iff.mp hmissing
      rw [FileTree.eq_notFound_of_find_of_obstructs haccepted hfind hobstructs]

/-- A file that was removed is made again. With its directory gone it is not, nor with the working directory gone, and
loading tells this in another way. -/
theorem saves_iff_leads_of_removed :
    let d : Name := [0x64]
    let p : Path := ⟨[0x64, 0x2F, 0x2E, 0x2E, 0x2F, 0x64, 0x2F, 0x2F, 0x66]⟩
    let t : Text := marker ++ ['(', '"', 'q', '"', ',', ' ', 'x', ')']
    let emptied := (FileTree.fresh.makeDirs ⟨d⟩).2
    let old := (emptied.write p t.encode).2
    let lost := (old.remove ⟨Name.above⟩).2
    let w := Snapshot.wrap ⟨p, t⟩
    old.load p = (.ok ⟨p, t⟩, old) ∧
      (∃ r tree', emptied.save w = (.ok r, tree') ∧ tree'.load p = (.ok ⟨p, wrap t⟩, tree')) ∧
      (FileTree.fresh.load p).1 = .error (.fileNotFound p) ∧
      FileTree.fresh.save w = (.error (.io p .notFound), FileTree.fresh) ∧
      lost.save w = (.error (.io p .notFound), lost) := by
  intro d p t emptied old lost w
  have hload : old.load p = (.ok ⟨p, t⟩, old) := by decide +kernel
  have hnames : p.names = [d, Name.above, d] ++ [[0x66]] := by decide
  have hdir : emptied.Enters [FileTree.homeName] d [FileTree.homeName, d] :=
    .down (by decide) (by decide) (by decide +kernel)
  have hleads : emptied.Leads [FileTree.homeName] [d, Name.above, d] [FileTree.homeName, d] :=
    .enter hdir (.enter .above (.enter hdir (.stay _)))
  obtain ⟨front, last, hsplit, hsaves, hloads, _⟩ := saves_iff_leads_of_loaded hload emptied
  obtain ⟨rfl, hlast⟩ := List.append_inj' (hnames.symm.trans hsplit) rfl
  cases hlast
  obtain ⟨r, tree', hsave⟩ := hsaves.mpr ⟨_, hleads, by decide +kernel, by decide +kernel⟩
  have hfails {tree : FileTree} (hobstructs : tree.Obstructs (tree.origin p) p.names .notFound) :
      tree.save w = (.error (.io p .notFound), tree) := by
    obtain ⟨_, _, _, _, _, hfails, hsame⟩ := saves_iff_leads_of_loaded hload tree
    obtain ⟨tree', hsave⟩ := (hfails _).mpr ⟨_, hobstructs, rfl⟩
    rwa [(hsame _ tree' hsave).1] at hsave
  refine ⟨hload, ⟨r, tree', hsave, (hloads r tree' hsave).2.2⟩, by decide +kernel, hfails ?_, hfails ?_⟩
  · exact .missing (by decide) (by decide) (by decide +kernel)
  · have hlost : lost.home.IsLost := show [] ∈ lost.home by decide +kernel
    have hgone : lost.entryAt? (lost.origin p) = none := lost.entryAt?_of_isLost hlost
    exact .gone (by decide) (by simp [hgone])

end ParamsWrap
