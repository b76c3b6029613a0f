import ParamsWrap.FileTree.Fault
import ParamsWrap.FileTree.Path

/-!
# File trees

A file tree holds directories and files by their locations, the names that lead to them from the
root. The root is always a directory, and every other entry has a name in one. The working directory
is one of the tree's directories until it is removed. Then `..` still leads up from it, but nothing is
found in it again, also when another directory is made in its place.
-/

namespace ParamsWrap

/-- The names that lead from the root to an entry. -/
abbrev Location := List Name

inductive Entry where
  | dir
  | file (content : Bytes)
deriving DecidableEq

theorem lookup_filter {α β : Type} [BEq α] [LawfulBEq α] (held : List (α × β)) (gone : α → Bool) (a : α) :
    (held.filter fun slot => !gone slot.1).lookup a = if gone a then none else held.lookup a := by
  induction held with
  | nil => simp
  | cons slot rest ih =>
    obtain ⟨b, e⟩ := slot
    by_cases hm : a = b
    · subst hm
      by_cases h : gone a
      · simpa [h] using ih
      · simp [h]
    · have hb : (a == b) = false := beq_false_of_ne hm
      by_cases h : gone b
      · simpa [h, List.lookup_cons, hb] using ih
      · simpa [h, List.lookup_cons, hb] using ih

/-- The name can be that of an entry. -/
structure Name.IsProper (n : Name) : Prop where
  ne_nil : n ≠ []
  ne_here : n ≠ Name.here
  ne_above : n ≠ Name.above

instance (n : Name) : Decidable n.IsProper :=
  decidable_of_iff (n ≠ [] ∧ n ≠ Name.here ∧ n ≠ Name.above)
    ⟨fun ⟨hnil, hhere, habove⟩ => ⟨hnil, hhere, habove⟩, fun h => ⟨h.ne_nil, h.ne_here, h.ne_above⟩⟩

namespace Location

/-- The location is that of a directory that is gone, or below one: these have the empty name. -/
def IsLost (l : Location) : Prop :=
  [] ∈ l

/-- What becomes of the location of a directory when the entries at some locations are gone. -/
def lose (l : Location) (gone : Location → Bool) : Location :=
  l.mapIdx fun i n => if gone (l.take (i + 1)) then [] else n

/-- With a directory goes all that it holds. -/
def Sweeps (gone : Location → Bool) : Prop :=
  ∀ l n, gone l → gone (l ++ [n])

variable {l : Location} {gone : Location → Bool}

theorem isLost_lose (hl : l ≠ []) (h : gone l) : (l.lose gone).IsLost := by
  have hpos : 0 < l.length := List.length_pos_iff.mpr hl
  refine List.mem_mapIdx.mpr ⟨l.length - 1, Nat.sub_lt hpos Nat.one_pos, ?_⟩
  rw [Nat.sub_add_cancel hpos, List.take_length, if_pos h]

theorem Sweeps.append (hgone : Sweeps gone) (h : gone l) (k : Location) : gone (l ++ k) := by
  induction k generalizing l with
  | nil => rwa [List.append_nil]
  | cons n k ih =>
    have hrest := ih (hgone l n h)
    rwa [List.append_assoc] at hrest

/-- Where an entry stays, so do those above it. -/
theorem Sweeps.lose_eq_self (hgone : Sweeps gone) (h : ¬ gone l) : l.lose gone = l := by
  have hstays (i : Nat) : ¬ gone (l.take i) := by
    intro hi
    have hall := hgone.append hi (l.drop i)
    rw [List.take_append_drop] at hall
    exact h hall
  refine List.ext_getElem List.length_mapIdx fun i hi hi' => ?_
  simp [lose, hstays]

/-- The second location is the first, or one further down. -/
def reaches (l m : Location) : Bool :=
  l.isPrefixOf m

def below (l m : Location) : Bool :=
  l.reaches m && m ≠ l

theorem sweeps_reaches (l : Location) : Sweeps l.reaches := by
  intro m n h
  exact List.isPrefixOf_iff_prefix.mpr ((List.isPrefixOf_iff_prefix.mp h).trans (List.prefix_append m [n]))

theorem sweeps_below (l : Location) : Sweeps l.below := by
  intro m n h
  have hreaches : l.reaches m := (Bool.and_eq_true_iff.mp h).1
  have hlen : l.length ≤ m.length := (List.isPrefixOf_iff_prefix.mp hreaches).length_le
  have hne : m ++ [n] ≠ l := by
    rintro rfl
    rw [List.length_append, List.length_singleton] at hlen
    omega
  simp [below, sweeps_reaches l m n hreaches, hne]

end Location

abbrev Entries := List (Location × Entry)

namespace Entries

/-- The entry at a location. There is always one at the root. -/
def at? (entries : Entries) (l : Location) : Option Entry :=
  if l = [] then some .dir else entries.lookup l

/-- Takes away the entries at the locations that `gone` accepts. -/
def prune (entries : Entries) (gone : Location → Bool) : Entries :=
  entries.filter fun held => !gone held.1

/-- Puts an entry at a location, in the place of what was there. -/
def put (entries : Entries) (l : Location) (e : Entry) : Entries :=
  (l, e) :: entries.prune (· = l)

/-- The location is that of a name in a directory, whether there is an entry of this name or not. -/
def Places (entries : Entries) (l : Location) : Prop :=
  ∃ (parent : Location) (n : Name), l = parent ++ [n] ∧ n.IsProper ∧ entries.at? parent = some .dir

variable {entries : Entries} {l m : Location}

theorem at?_prune (gone : Location → Bool) (hm : m ≠ []) :
    (entries.prune gone).at? m = if gone m then none else entries.at? m := by
  simp [at?, prune, hm, lookup_filter]

theorem at?_put (hl : l ≠ []) (e : Entry) :
    (entries.put l e).at? m = if m = l then some e else entries.at? m := by
  by_cases hm : m = []
  · simp [at?, hm, hl.symm]
  · by_cases h : m = l
    · simp [at?, put, h, hl]
    · have hb : (m == l) = false := beq_false_of_ne h
      have hrest : (entries.prune (· = l)).at? m = entries.at? m := by
        rw [at?_prune _ hm]
        simp [h]
      rw [if_neg h, ← hrest]
      simp [at?, put, hm, List.lookup_cons, hb]

theorem Places.ne_nil (h : entries.Places l) : l ≠ [] := by
  obtain ⟨parent, n, rfl, _, _⟩ := h
  simp

/-- Where no directory gives way to the entry, every directory stays. -/
theorem at?_put_of_dir (hl : l ≠ []) (hdir : entries.at? l ≠ some .dir) (e : Entry)
    (hm : entries.at? m = some .dir) : (entries.put l e).at? m = some .dir := by
  have hne : m ≠ l := by
    rintro rfl
    exact hdir hm
  rw [at?_put hl, if_neg hne, hm]

theorem Places.put (h : entries.Places m) (hl : l ≠ []) (hdir : entries.at? l ≠ some .dir) (e : Entry) :
    (entries.put l e).Places m := by
  obtain ⟨parent, n, hm, hn, hparent⟩ := h
  exact ⟨parent, n, hm, hn, at?_put_of_dir hl hdir e hparent⟩

/-- A location that stays is still in a directory when with each directory goes all that it holds. -/
theorem Places.prune {gone : Location → Bool} (h : entries.Places m) (hgone : Location.Sweeps gone)
    (hm : ¬ gone m) : (entries.prune gone).Places m := by
  obtain ⟨parent, n, rfl, hn, hparent⟩ := h
  have hstays : ¬ gone parent := fun h => hm (hgone parent n h)
  refine ⟨parent, n, rfl, hn, ?_⟩
  by_cases hroot : parent = []
  · rw [hroot]
    rfl
  · rw [at?_prune gone hroot, if_neg hstays, hparent]

end Entries

structure FileTree where
  home : Location
  entries : Entries
  places : ∀ l e, l ≠ [] → entries.at? l = some e → entries.Places l
  home_dir : entries.at? home = some .dir ∨ home.IsLost
deriving DecidableEq

namespace FileTree

/-- The name of the working directory in a fresh tree. It holds a slash, so that no path spells it:
the working directory is where paths start and is not reached by its name. -/
def homeName : Name := [Path.slash]

/-- A tree with nothing but the working directory. -/
def fresh : FileTree where
  home := [homeName]
  entries := [([homeName], .dir)]
  places := by
    intro l e hl h
    by_cases hhome : l = [homeName]
    · exact ⟨[], homeName, hhome, ⟨by decide, by decide, by decide⟩, rfl⟩
    · have hb : (l == [homeName]) = false := beq_false_of_ne hhome
      simp [Entries.at?, hl, List.lookup_cons, hb] at h
  home_dir := .inl rfl

def entryAt? (tree : FileTree) (l : Location) : Option Entry :=
  tree.entries.at? l

variable {tree : FileTree} {l : Location}

/-- What has an entry is a directory. -/
theorem entryAt?_eq_dir_of_concat {n : Name} {e : Entry} (h : tree.entryAt? (l ++ [n]) = some e) :
    tree.entryAt? l = some .dir := by
  obtain ⟨parent, m, hl, _, hparent⟩ := tree.places _ e (by simp) h
  obtain ⟨rfl, _⟩ := List.append_inj' hl rfl
  exact hparent

/-- What is gone is not found again. -/
theorem entryAt?_of_isLost (tree : FileTree) {l : Location} (h : l.IsLost) : tree.entryAt? l = none := by
  cases hentry : tree.entryAt? l with
  | none => rfl
  | some e =>
    obtain ⟨parent, n, hl, hn, hparent⟩ := tree.places l e (List.ne_nil_of_mem h) hentry
    have hlost : parent.IsLost := by
      rw [hl] at h
      exact (List.mem_append.mp h).resolve_right fun hmem => hn.ne_nil (List.mem_singleton.mp hmem).symm
    have hnone := entryAt?_of_isLost tree hlost
    cases hnone.symm.trans hparent
termination_by l.length
decreasing_by simp [hl]

/-- An entry can be put at the location: it is that of a name in a directory, and no directory has
this name. -/
structure Takes (tree : FileTree) (l : Location) : Prop where
  places : tree.entries.Places l
  ne_dir : tree.entryAt? l ≠ some .dir

theorem takes_concat {n : Name} (hn : n.IsProper) (hl : tree.entryAt? l = some .dir)
    (hdir : tree.entryAt? (l ++ [n]) ≠ some .dir) : tree.Takes (l ++ [n]) :=
  ⟨⟨l, n, rfl, hn, hl⟩, hdir⟩

theorem takes_of_file {content : Bytes} (h : tree.entryAt? l = some (.file content)) : tree.Takes l := by
  have hl : l ≠ [] := by
    rintro rfl
    cases h
  refine ⟨tree.places l _ hl h, ?_⟩
  rw [h]
  exact nofun

/-- Puts an entry at a location, in the place of the file that may be there. -/
def insert (tree : FileTree) (l : Location) (e : Entry) (h : tree.Takes l) : FileTree where
  home := tree.home
  entries := tree.entries.put l e
  places := by
    intro m f hm hentry
    refine Entries.Places.put ?_ h.places.ne_nil h.ne_dir e
    rw [Entries.at?_put h.places.ne_nil] at hentry
    split at hentry
    · rename_i hself
      exact hself ▸ h.places
    · exact tree.places m f hm hentry
  home_dir := tree.home_dir.imp_left fun hdir => Entries.at?_put_of_dir h.places.ne_nil h.ne_dir e hdir

/-- After an entry is put at a location, that location holds it and every other location holds what it
held. -/
theorem entryAt?_insert (e : Entry) (h : tree.Takes l) (m : Location) :
    (tree.insert l e h).entryAt? m = if m = l then some e else tree.entryAt? m :=
  Entries.at?_put h.places.ne_nil e

/-- Takes away the entries at the locations that `gone` accepts. With a directory goes all that it
holds. -/
def prune (tree : FileTree) (gone : Location → Bool) (hgone : Location.Sweeps gone) :
    FileTree where
  home := tree.home.lose gone
  entries := tree.entries.prune gone
  places := by
    intro m e hm hentry
    rw [Entries.at?_prune gone hm] at hentry
    split at hentry
    · cases hentry
    · rename_i hstays
      exact (tree.places m e hm hentry).prune hgone hstays
  home_dir := by
    by_cases hroot : tree.home = []
    · rw [hroot]
      exact .inl rfl
    · by_cases hhome : gone tree.home
      · exact .inr (Location.isLost_lose hroot hhome)
      · rw [hgone.lose_eq_self hhome, Entries.at?_prune gone hroot, if_neg hhome]
        exact tree.home_dir

end FileTree

end ParamsWrap
