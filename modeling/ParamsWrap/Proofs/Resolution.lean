import ParamsWrap.FileTree.Access
import ParamsWrap.Proofs.ByteRange

/-!
# Where paths lead

A path names a location when the names before its last lead from directory to directory, the last of these is
still there, and the last name is that of an entry in it, whether there is such an entry or not. Reading finds the
file at the location that a path names, and writing puts one there unless it holds a directory.
-/

namespace ParamsWrap

namespace FileTree

/-- One name leads from a directory to a directory. The empty name and `.` stay where they are. -/
inductive Enters (tree : FileTree) (l : Location) : Name → Location → Prop
  | stay {n : Name} (hn : ¬ n.IsProper) (habove : n ≠ Name.above) : Enters tree l n l
  | above : Enters tree l Name.above l.dropLast
  | down {n : Name} (hn : n.IsProper) (hlen : n.length ≤ longestName) (hdir : tree.entryAt? (l ++ [n]) = some .dir) :
      Enters tree l n (l ++ [n])

/-- The names lead from directory to directory. -/
inductive Leads (tree : FileTree) : Location → List Name → Location → Prop
  | stay (l : Location) : Leads tree l [] l
  | enter {l m k : Location} {n : Name} {rest : List Name} (hn : tree.Enters l n m)
      (hrest : Leads tree m rest k) : Leads tree l (n :: rest) k

/-- The path is one that the system accepts, and it names an entry in a directory, there or not. The names may lead to
no directory, as the one that they start from may be gone. -/
structure Names (tree : FileTree) (p : Path) (l : Location) : Prop where
  zero_not_mem : 0 ∉ p.bytes
  length_le : p.bytes.length ≤ longestPath
  endsInSlash_eq : p.endsInSlash = false
  leads : ∃ front parent last, p.names = front ++ [last] ∧ tree.Leads (tree.origin p) front parent ∧
    tree.entryAt? parent = some .dir ∧ last.IsProper ∧ last.length ≤ longestName ∧ l = parent ++ [last]

/-- The file at the location holds the text. -/
def Holds (tree : FileTree) (l : Location) (t : Text) : Prop :=
  tree.entryAt? l = some (.file t.encode)

/-- The second tree is the first with a file of this content at the location. -/
structure Replaces (tree : FileTree) (l : Location) (content : Bytes) (tree' : FileTree) : Prop where
  home_eq : tree'.home = tree.home
  entryAt?_self : tree'.entryAt? l = some (.file content)
  entryAt?_of_ne : ∀ m, m ≠ l → tree'.entryAt? m = tree.entryAt? m

variable {tree tree' : FileTree}

lemma Holds.ne_dir {l : Location} {t : Text} (h : tree.Holds l t) : tree.entryAt? l ≠ some .dir := by
  rw [h]
  simp

lemma Holds.unique {l : Location} {t u : Text} (ht : tree.Holds l t) (hu : tree.Holds l u) : t = u := by
  have hentry := ht.symm.trans hu
  rw [Option.some.injEq, Entry.file.injEq] at hentry
  exact Text.encode_injective hentry

lemma Holds.replaces {l : Location} {t : Text} (h : tree.Holds l t) : tree.Replaces l t.encode tree where
  home_eq := rfl
  entryAt?_self := h
  entryAt?_of_ne _ _ := rfl

/-! ### Walking -/

/-- An entry is found where there is one: it is in a directory. -/
lemma lookUp_eq_ok_iff {l : Location} {n : Name} {e : Entry} :
    tree.lookUp l n = .ok e ↔ n.length ≤ longestName ∧ tree.entryAt? (l ++ [n]) = some e := by
  constructor
  · intro h
    unfold lookUp at h
    split at h
    · cases h
    · split at h
      · cases h
      · rename_i hlen
        split at h
        · cases h
        · rename_i hentry
          cases h
          exact ⟨Nat.le_of_not_lt hlen, hentry⟩
  · rintro ⟨hlen, hentry⟩
    have hdir := entryAt?_eq_dir_of_concat hentry
    simp [lookUp, hdir, Nat.not_lt.mpr hlen, hentry]

lemma enter_eq_ok_iff {l m : Location} {n : Name} : tree.enter l n = .ok m ↔ tree.Enters l n m := by
  constructor
  · intro h
    unfold enter at h
    split at h
    · rename_i habove
      cases h
      rw [habove]
      exact .above
    · rename_i habove
      split at h
      · rename_i hn
        split at h
        · cases h
        · cases h
        · rename_i hlook
          cases h
          obtain ⟨hlen, hdir⟩ := lookUp_eq_ok_iff.mp hlook
          exact .down hn hlen hdir
      · rename_i hn
        cases h
        exact .stay hn habove
  · intro h
    cases h with
    | stay hn habove => rw [enter, if_neg habove, if_neg hn]
    | above => rw [enter, if_pos rfl]
    | down hn hlen hdir =>
      have hlook : tree.lookUp l n = .ok .dir := lookUp_eq_ok_iff.mpr ⟨hlen, hdir⟩
      rw [enter, if_neg hn.ne_above, if_pos hn, hlook]

lemma enters_iff_of_enter_eq_ok {l m k : Location} {n : Name} (h : tree.enter l n = .ok k) :
    tree.Enters l n m ↔ k = m := by
  rw [← enter_eq_ok_iff, h, Except.ok.injEq]

lemma not_enters_of_enter_eq_error {l m : Location} {n : Name} {f : Fault} (h : tree.enter l n = .error f) :
    ¬ tree.Enters l n m := by
  intro hn
  rw [← enter_eq_ok_iff, h] at hn
  cases hn

lemma leads_nil_iff {l k : Location} : tree.Leads l [] k ↔ l = k := by
  constructor
  · rintro ⟨⟩
    rfl
  · rintro rfl
    exact .stay l

lemma leads_cons_iff {l k : Location} {n : Name} {rest : List Name} :
    tree.Leads l (n :: rest) k ↔ ∃ m, tree.Enters l n m ∧ tree.Leads m rest k := by
  constructor
  · rintro (_ | ⟨hn, hrest⟩)
    exact ⟨_, hn, hrest⟩
  · rintro ⟨m, hn, hrest⟩
    exact .enter hn hrest

lemma walk_cons_concat (l : Location) (n : Name) (front : List Name) (last : Name) :
    tree.walk l (n :: (front ++ [last])) = (tree.enter l n).bind (tree.walk · (front ++ [last])) := by
  rw [walk, dif_neg (by simp)]
  cases tree.enter l n <;> rfl

lemma walk_concat_eq_ok_name_iff {l parent : Location} {front : List Name} {n last : Name} {hlast : last.IsProper} :
    tree.walk l (front ++ [n]) = .ok (.name parent last hlast) ↔ tree.Leads l front parent ∧ n = last := by
  induction front generalizing l with
  | nil =>
    rw [leads_nil_iff, List.nil_append, walk]
    by_cases hn : n.IsProper
    · -- The last name is not looked up: it may be that of an entry that is not there.
      simp [hn]
    · have hne : n ≠ last := by
        rintro rfl
        exact hn hlast
      rw [dif_neg (fun h => hn h.1)]
      cases tree.enter l n <;> simp [walk, hne]
  | cons m front ih =>
    rw [List.cons_append, walk_cons_concat, leads_cons_iff]
    cases henter : tree.enter l m with
    | error f => simp [Except.bind, not_enters_of_enter_eq_error henter]
    | ok k => simp [Except.bind, enters_iff_of_enter_eq_ok henter, ih]

lemma place_eq_walk {p : Path} {front : List Name} {last : Name} (hzero : 0 ∉ p.bytes)
    (hlen : p.bytes.length ≤ longestPath) (hnames : p.names = front ++ [last]) :
    tree.place p = tree.walk (tree.origin p) (front ++ [last]) := by
  have hbytes : p.bytes ≠ [] := by
    intro hnil
    have hnone : p.names = [] := by rw [Path.names, hnil]; rfl
    rw [hnone] at hnames
    exact List.cons_ne_nil _ _ (List.append_eq_nil_iff.mp hnames.symm).2
  rw [place, if_neg hzero, if_neg hbytes, if_neg (Nat.not_lt.mpr hlen), hnames]

lemma place_eq_ok_name_iff {p : Path} {parent : Location} {last : Name} {hlast : last.IsProper} :
    tree.place p = .ok (.name parent last hlast) ↔ 0 ∉ p.bytes ∧ p.bytes.length ≤ longestPath ∧
      ∃ front, p.names = front ++ [last] ∧ tree.Leads (tree.origin p) front parent := by
  constructor
  · intro h
    unfold place at h
    split at h
    · cases h
    · split at h
      · cases h
      · split at h
        · cases h
        · rename_i hzero _ hlen
          refine ⟨hzero, Nat.le_of_not_lt hlen, ?_⟩
          rcases List.eq_nil_or_concat p.names with hnil | ⟨front, n, hconcat⟩
          · rw [hnil] at h
            cases h
          · rw [List.concat_eq_append] at hconcat
            rw [hconcat, walk_concat_eq_ok_name_iff] at h
            obtain ⟨hleads, rfl⟩ := h
            exact ⟨front, hconcat, hleads⟩
  · rintro ⟨hzero, hlen, front, hnames, hleads⟩
    rw [place_eq_walk hzero hlen hnames]
    exact walk_concat_eq_ok_name_iff.mpr ⟨hleads, rfl⟩

lemma names_iff {p : Path} {l : Location} : tree.Names p l ↔ p.endsInSlash = false ∧
    ∃ parent last hlast, tree.place p = .ok (.name parent last hlast) ∧ tree.entryAt? parent = some .dir ∧
      last.length ≤ longestName ∧ l = parent ++ [last] := by
  constructor
  · rintro ⟨hzero, hlen, hslash, front, parent, last, hnames, hleads, hparent, hlast, hlen', rfl⟩
    have hplace : tree.place p = .ok (.name parent last hlast) :=
      place_eq_ok_name_iff.mpr ⟨hzero, hlen, front, hnames, hleads⟩
    exact ⟨hslash, parent, last, hlast, hplace, hparent, hlen', rfl⟩
  · rintro ⟨hslash, parent, last, hlast, hplace, hparent, hlen', rfl⟩
    obtain ⟨hzero, hlen, front, hnames, hleads⟩ := place_eq_ok_name_iff.mp hplace
    exact ⟨hzero, hlen, hslash, front, parent, last, hnames, hleads, hparent, hlast, hlen', rfl⟩

lemma Names.unique {p : Path} {l m : Location} (hl : tree.Names p l) (hm : tree.Names p m) : l = m := by
  obtain ⟨_, parent, last, _, hplace, _, _, rfl⟩ := names_iff.mp hl
  obtain ⟨_, parent', last', _, hplace', _, _, rfl⟩ := names_iff.mp hm
  cases hplace.symm.trans hplace'
  rfl

/-! ### Reading and writing -/

lemma find_eq_ok_file_iff {p : Path} {l : Location} {content : Bytes} :
    tree.find p = .ok (l, .file content) ↔ tree.Names p l ∧ tree.entryAt? l = some (.file content) := by
  constructor
  · intro h
    unfold find at h
    split at h
    · cases h
    · cases h
    · rename_i parent last hlast hplace
      split at h
      · cases h
      · cases h
      · rename_i hlook
        split at h
        · cases h
        · rename_i hslash
          cases h
          obtain ⟨hlen, hentry⟩ := lookUp_eq_ok_iff.mp hlook
          have hparent := entryAt?_eq_dir_of_concat hentry
          exact ⟨names_iff.mpr ⟨by simpa using hslash, parent, last, hlast, hplace, hparent, hlen, rfl⟩, hentry⟩
  · rintro ⟨hnames, hentry⟩
    obtain ⟨hslash, parent, last, _, hplace, _, hlen, rfl⟩ := names_iff.mp hnames
    have hlook := lookUp_eq_ok_iff.mpr ⟨hlen, hentry⟩
    simp [find, hplace, hlook, hslash]

lemma target_eq_ok_iff {p : Path} {spot : {l : Location // tree.Takes l}} :
    tree.target p = .ok spot ↔ tree.Names p spot := by
  constructor
  · intro h
    unfold target at h
    split at h
    · cases h
    · cases h
    · rename_i parent last hlast hplace
      split at h
      · cases h
      · rename_i hslash
        split at h
        · rename_i hparent
          split at h
          · cases h
          · rename_i hlen
            split at h
            · cases h
            · cases h
              exact names_iff.mpr
                ⟨by simpa using hslash, parent, last, hlast, hplace, hparent, Nat.le_of_not_lt hlen, rfl⟩
        · cases h
  · intro h
    obtain ⟨l, htakes⟩ := spot
    obtain ⟨hslash, parent, last, _, hplace, hparent, hlen, rfl⟩ := names_iff.mp h
    simp [target, hplace, hslash, hparent, Nat.not_lt.mpr hlen, htakes.ne_dir]

/-- A file can be put where the path names an entry that is no directory. -/
lemma Names.takes {p : Path} {l : Location} (h : tree.Names p l) (hdir : tree.entryAt? l ≠ some .dir) :
    tree.Takes l := by
  obtain ⟨_, parent, last, hlast, _, hparent, _, rfl⟩ := names_iff.mp h
  exact takes_concat hlast hparent hdir

lemma read_eq_ok_iff {p : Path} {content : Bytes} :
    tree.read p = .ok content ↔ ∃ l, tree.Names p l ∧ tree.entryAt? l = some (.file content) := by
  simp only [← find_eq_ok_file_iff]
  unfold read
  split
  · simp_all
  · simp_all
  · simp_all

lemma replaces_insert {l : Location} (content : Bytes) (h : tree.Takes l) :
    tree.Replaces l content (tree.insert l (.file content) h) where
  home_eq := rfl
  entryAt?_self := by rw [entryAt?_insert, if_pos rfl]
  entryAt?_of_ne := by
    intro m hm
    rw [entryAt?_insert, if_neg hm]

lemma Replaces.trans {tree'' : FileTree} {l : Location} {content more : Bytes}
    (h : tree.Replaces l content tree') (h' : tree'.Replaces l more tree'') : tree.Replaces l more tree'' where
  home_eq := h'.home_eq.trans h.home_eq
  entryAt?_self := h'.entryAt?_self
  entryAt?_of_ne m hm := (h'.entryAt?_of_ne m hm).trans (h.entryAt?_of_ne m hm)

lemma replaces_extend {l : Location} {content : Bytes} (h : tree.entryAt? l = some (.file content)) (more : Bytes) :
    tree.Replaces l (content ++ more) (tree.extend l more) := by
  unfold extend
  split
  · rename_i hfile
    cases h.symm.trans hfile
    exact replaces_insert _ _
  · rename_i hother
    exact absurd h (hother content)

/-- The file is emptied or made first, and then the bytes are put into it. -/
lemma exists_write_eq_ok {p : Path} {l : Location} (hnames : tree.Names p l) (hdir : tree.entryAt? l ≠ some .dir)
    (content : Bytes) : ∃ tree', tree.write p content = (.ok (), tree') ∧ tree.Replaces l content tree' := by
  have htakes : tree.Takes l := hnames.takes hdir
  have htarget : tree.target p = .ok ⟨l, htakes⟩ := target_eq_ok_iff.mpr hnames
  have hopened : tree.Replaces l [] (tree.insert l (.file []) htakes) := replaces_insert [] htakes
  refine ⟨(tree.insert l (.file []) htakes).extend l content, ?_, ?_⟩
  · simp [write, output, openFile, htarget]
  · exact hopened.trans (replaces_extend hopened.entryAt?_self content)

/-- A file that cannot be opened is not touched. -/
lemma output_eq_error_iff {p : Path} {anew : Bool} {content : Bytes} {f : Fault} :
    tree.output p anew content = (.error f, tree') ↔ tree.target p = .error f ∧ tree' = tree := by
  unfold output openFile
  cases tree.target p with
  | error g => simp [eq_comm]
  | ok spot =>
    obtain ⟨l, htakes⟩ := spot
    by_cases hfresh : anew = true ∨ tree.entryAt? l = none
    · simp [hfresh]
    · simp [hfresh]

lemma write_eq_error_iff {p : Path} {content : Bytes} {f : Fault} :
    tree.write p content = (.error f, tree') ↔ tree.target p = .error f ∧ tree' = tree := output_eq_error_iff

lemma write_eq_ok {p : Path} {content : Bytes} (h : tree.write p content = (.ok (), tree')) :
    ∃ l, tree.Names p l ∧ tree.entryAt? l ≠ some .dir ∧ tree.Replaces l content tree' := by
  cases htarget : tree.target p with
  | error f =>
    rw [write_eq_error_iff.mpr ⟨htarget, rfl⟩] at h
    cases h
  | ok spot =>
    obtain ⟨l, htakes⟩ := spot
    have hnames : tree.Names p l := target_eq_ok_iff.mp htarget
    obtain ⟨tree'', hwrite, hreplaces⟩ := exists_write_eq_ok hnames htakes.ne_dir content
    cases h.symm.trans hwrite
    exact ⟨l, hnames, htakes.ne_dir, hreplaces⟩

/-! ### Where paths lead in another tree -/

lemma Leads.mono {l k : Location} {names : List Name} (h : tree.Leads l names k)
    (hdir : ∀ m, tree.entryAt? m = some .dir → tree'.entryAt? m = some .dir) : tree'.Leads l names k := by
  induction h with
  | stay l => exact .stay l
  | enter hn _ ih =>
    cases hn with
    | stay hn habove => exact .enter (.stay hn habove) ih
    | above => exact .enter .above ih
    | down hn hlen hentry => exact .enter (.down hn hlen (hdir _ hentry)) ih

/-- What a path names depends on the directories only. -/
lemma Names.mono {p : Path} {l : Location} (h : tree.Names p l) (hhome : tree'.home = tree.home)
    (hdir : ∀ m, tree.entryAt? m = some .dir → tree'.entryAt? m = some .dir) : tree'.Names p l := by
  obtain ⟨hzero, hlen, hslash, front, parent, last, hnames, hleads, hparent, hlast⟩ := h
  have horigin : tree'.origin p = tree.origin p := by rw [origin, origin, hhome]
  exact ⟨hzero, hlen, hslash, front, parent, last, hnames, horigin ▸ hleads.mono hdir, hdir parent hparent, hlast⟩

lemma Replaces.names {p : Path} {l m : Location} {content : Bytes} (h : tree.Replaces l content tree')
    (hl : tree.entryAt? l ≠ some .dir) (hnames : tree.Names p m) : tree'.Names p m := by
  apply hnames.mono h.home_eq
  intro k hk
  have hne : k ≠ l := by
    rintro rfl
    exact hl hk
  rwa [h.entryAt?_of_ne k hne]

end FileTree

end ParamsWrap
