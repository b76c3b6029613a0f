import ParamsWrap.Proofs.Running

/-!
# How a command line is answered

The first argument decides, or the second where the first is a file name: a flag is answered with its text, whatever
follows it, and a file is wrapped when nothing else is named. All other command lines are rejected. A flag is spelt
out in full, or its letter stands right behind a dash as the byte that it is; no other bytes read as that letter.
-/

namespace ParamsWrap

/-! ### Characters below 128 are read from one byte only -/

namespace Lossy

/-- A first byte stands for itself, or what must follow makes at least 128 of it. -/
lemma promise?_cases {b : UInt8} {p : Promise} (h : promise? b = some p) :
    p.share = b.toNat ∧ p.more = 0 ∨
      ∃ more, p.more = more + 1 ∧ 0x80 ≤ (p.share * 64 + (p.low.toNat - 0x80)) * 64 ^ more := by
  have hge {n : UInt8} (hn : ¬ b < n) : n.toNat ≤ b.toNat := UInt8.le_iff_toNat_le.mp (UInt8.not_lt.mp hn)
  have hne {n : UInt8} (hn : b ≠ n) : b.toNat ≠ n.toNat := mt UInt8.toNat_inj.mp hn
  have hC2 : (0xC2 : UInt8).toNat = 0xC2 := rfl
  have hE0 : (0xE0 : UInt8).toNat = 0xE0 := rfl
  have hF0 : (0xF0 : UInt8).toNat = 0xF0 := rfl
  simp only [promise?, ite_eq_iff, reduceCtorEq, and_false, false_or, or_false, Option.some.injEq] at h
  obtain ⟨_, rfl⟩ | ⟨_, h2, ⟨_, rfl⟩ | ⟨h3, ⟨_, rfl⟩ | ⟨h4, ⟨_, rfl⟩ | ⟨_, ⟨_, rfl⟩ | ⟨h6, ⟨_, rfl⟩ | ⟨h7,
    ⟨_, rfl⟩ | ⟨_, _, rfl⟩⟩⟩⟩⟩⟩⟩ := h
  -- One case for each range of first bytes. Behind `E0` and `F0`, whose share is zero, the low bound of the next
  -- byte keeps the value large.
  · exact .inl ⟨rfl, rfl⟩
  · have hle := hge h2
    exact .inr ⟨0, rfl, by dsimp only; omega⟩
  · exact .inr ⟨1, rfl, by decide⟩
  · exact .inr ⟨1, rfl, by decide⟩
  · have hle := hge h3
    have hdiff := hne h4
    exact .inr ⟨1, rfl, by dsimp only; omega⟩
  · exact .inr ⟨2, rfl, by decide⟩
  · have hle := hge h6
    have hdiff := hne h7
    exact .inr ⟨2, rfl, by dsimp only; omega⟩
  · exact .inr ⟨2, rfl, by decide⟩

lemma exists_of_keep_eq_some {value more : Nat} {low high : UInt8} {bytes : Bytes} {c : Char}
    (h : (keep value more low high bytes).1 = some c) : ∃ n, value * 64 ^ more ≤ n ∧ c = Char.ofNat n := by
  induction bytes generalizing value more low high with
  | nil =>
    cases more with
    | zero => exact ⟨value, by omega, by simpa [keep, eq_comm] using h⟩
    | succ more => simp [keep] at h
  | cons b rest ih =>
    cases more with
    | zero => exact ⟨value, by omega, by simpa [keep, eq_comm] using h⟩
    | succ more =>
      rw [keep] at h
      split at h
      · obtain ⟨n, hn, hc⟩ := ih h
        refine ⟨n, le_trans ?_ hn, hc⟩
        rw [Nat.pow_succ', ← Nat.mul_assoc]
        exact Nat.mul_le_mul_right _ (Nat.le_add_right _ _)
      · cases h

lemma exists_of_next_eq_some {b : UInt8} {rest : Bytes} {c : Char} (h : (next b rest).1 = some c) :
    ∃ n, c = Char.ofNat n ∧ (n = b.toNat ∨ 0x80 ≤ n) := by
  unfold next at h
  split at h
  · cases h
  rename_i p hp
  obtain ⟨hshare, hmore⟩ | ⟨more, hmore, hlarge⟩ := promise?_cases hp
  · rw [hmore, hshare] at h
    exact ⟨b.toNat, by cases rest <;> simpa [keep, eq_comm] using h, .inl rfl⟩
  · rw [hmore] at h
    cases rest with
    | nil => simp [keep] at h
    | cons d rest =>
      rw [keep] at h
      split at h
      · rename_i hrange
        obtain ⟨n, hn, hc⟩ := exists_of_keep_eq_some h
        have hlow : p.low.toNat ≤ d.toNat := UInt8.le_iff_toNat_le.mp hrange.1
        have hfirst : p.share * 64 + (p.low.toNat - 0x80) ≤ p.share * 64 + (d.toNat - 0x80) := by omega
        exact ⟨n, hc, .inr (hlarge.trans ((Nat.mul_le_mul_right _ hfirst).trans hn))⟩
      · cases h

lemma toNat_ofNat (n : Nat) : (Char.ofNat n).toNat = n ∨ (Char.ofNat n).toNat = 0 := by
  by_cases hvalid : n.isValidChar
  · rw [Char.ofNat, dif_pos hvalid]
    exact .inl rfl
  · rw [Char.ofNat, dif_neg hvalid]
    exact .inr rfl

/-- A character below 128 other than zero is read from the byte that it is and from no others. -/
lemma toNat_of_next_eq_some {b : UInt8} {rest : Bytes} {c : Char} (h : (next b rest).1 = some c)
    (hpos : 0 < c.toNat) (hlt : c.toNat < 0x80) : b.toNat = c.toNat := by
  obtain ⟨n, rfl, hn⟩ := exists_of_next_eq_some h
  have hvalue := toNat_ofNat n
  omega

end Lossy

/-! ### Flags -/

namespace Flag

def letter : Flag → Char
  | help => 'h'
  | version => 'V'

lemma ofLetter?_eq_some_iff {c : Char} {f : Flag} : ofLetter? c = some f ↔ c = f.letter := by
  unfold ofLetter?
  split
  · cases f <;> simp [letter]
  · cases f <;> simp [letter]
  · cases f <;> simp_all [letter]

lemma ofName?_eq_some_iff {name : Bytes} {f : Flag} : ofName? name = some f ↔ name = Text.encode f.name := by
  have hne : Text.encode version.name ≠ Text.encode help.name := by decide
  unfold ofName?
  split_ifs with hhelp hversion
  · subst hhelp
    cases f with
    | help => simp
    | version => simp [hne.symm]
  · subst hversion
    cases f with
    | help => simp [hne]
    | version => simp
  · cases f with
    | help => simp [hhelp]
    | version => simp [hversion]

end Flag

namespace Argument

/-- The argument spells the flag out, or begins with a dash and the letter of the flag. -/
def IsFlag (f : Flag) (arg : Bytes) : Prop :=
  arg = Text.encode ('-' :: '-' :: f.name) ∨ Text.encode ['-', f.letter] <+: arg

lemma isFlag_iff {f : Flag} {arg : Bytes} : IsFlag f arg ↔
    arg = dash :: dash :: Text.encode f.name ∨ ∃ rest, arg = dash :: UInt8.ofNat f.letter.toNat :: rest := by
  have hname : Text.encode ('-' :: '-' :: f.name) = dash :: dash :: Text.encode f.name := rfl
  have hletter : Text.encode ['-', f.letter] = [dash, UInt8.ofNat f.letter.toNat] := by cases f <;> rfl
  rw [IsFlag, hname, hletter]
  apply or_congr_right
  constructor
  · rintro ⟨rest, rfl⟩
    exact ⟨rest, rfl⟩
  · rintro ⟨rest, rfl⟩
    exact ⟨rest, rfl⟩

lemma ofShort_eq_flag_iff {b : UInt8} {rest : Bytes} {f : Flag} :
    ofShort b rest = flag f ↔ b = UInt8.ofNat f.letter.toNat := by
  constructor
  · intro h
    unfold ofShort at h
    split at h
    · cases h
    rename_i c hc
    split at h
    · cases h
    rename_i f' hf
    obtain rfl := Argument.flag.inj h
    obtain rfl := Flag.ofLetter?_eq_some_iff.mp hf
    have hletter : 0 < f'.letter.toNat ∧ f'.letter.toNat < 0x80 := by cases f' <;> decide
    rw [← Lossy.toNat_of_next_eq_some hc hletter.1 hletter.2, UInt8.ofNat_toNat]
  · rintro rfl
    cases f <;> cases rest <;> rfl

lemma ofLong_eq_flag_iff {word : Bytes} {f : Flag} : ofLong word = flag f ↔ word = Text.encode f.name := by
  have hsplit := List.takeWhile_append_dropWhile (p := (· ≠ equals)) (l := word)
  constructor
  · intro h
    unfold ofLong at h
    dsimp only at h
    split at h
    · cases h
    · rename_i f' hname hrest
      obtain rfl := Argument.flag.inj h
      rw [Flag.ofName?_eq_some_iff] at hname
      rw [← hsplit, hrest, hname, List.append_nil]
    · cases h
  · rintro rfl
    cases f <;> rfl

/-- An argument is read as a flag exactly where it is one. -/
theorem ofBytes_eq_flag_iff {arg : Bytes} {f : Flag} : ofBytes arg = flag f ↔ IsFlag f arg := by
  have hletter : UInt8.ofNat f.letter.toNat ≠ dash := by cases f <;> decide
  have hname : Text.encode f.name ≠ [] := by cases f <;> decide
  rw [isFlag_iff]
  match arg with
  | [] => simp [ofBytes]
  | [b] => simp [ofBytes]
  | b :: c :: rest =>
    by_cases hb : b = dash
    · subst hb
      by_cases hc : c = dash
      · subst hc
        by_cases hrest : rest = []
        · simp [ofBytes, hrest, hletter.symm, hname.symm]
        · simp [ofBytes, hrest, hletter.symm, ofLong_eq_flag_iff]
      · simp [ofBytes, hc, ofShort_eq_flag_iff]
    · simp [ofBytes, hb]

end Argument

namespace Request

open Argument

variable {f : Flag} {args : List Bytes}

lemma ofFile?_ne_inform (file? : Option Path) : ofFile? file? ≠ inform f := by
  unfold ofFile?
  split
  · simp
  · split <;> simp

lemma ofFiles_ne_inform (file? : Option Path) : ofFiles file? args ≠ inform f := by
  induction args generalizing file? with
  | nil => exact ofFile?_ne_inform file?
  | cons arg rest ih =>
    cases file? with
    | none => exact ih _
    | some p => simp [ofFiles]

lemma ofArguments_eq_inform_iff_of_isOption {arg : Bytes} (h : (ofBytes arg).IsOption) {file? : Option Path} :
    ofArguments file? (arg :: args) = inform f ↔ IsFlag f arg ∧ file? ≠ some ⟨[]⟩ := by
  rw [← ofBytes_eq_flag_iff]
  cases harg : ofBytes arg <;> rw [harg] at h
  case file => exact h.elim
  case separator => exact h.elim
  case flag f' =>
    simp only [ofArguments, harg]
    split_ifs with hempty <;> simp [hempty]
  case flagWithValue f' value => simp [ofArguments, harg]
  case unknownLong word =>
    simp only [ofArguments, harg]
    split <;> simp
  case unknownShort letter => simp [ofArguments, harg]

lemma ofArguments_some_eq_inform_iff {name : Bytes} : ofArguments (some ⟨name⟩) args = inform f ↔
    name ≠ [] ∧ ∃ arg rest, IsFlag f arg ∧ args = arg :: rest := by
  cases args with
  | nil => simp [ofArguments, ofFile?_ne_inform]
  | cons arg rest =>
    -- A second name, or the dashes, end the reading of options; only a flag can still be answered.
    have hargs : (∃ arg' rest', IsFlag f arg' ∧ arg :: rest = arg' :: rest') ↔ IsFlag f arg := by
      simp
    rw [hargs]
    obtain ⟨_, hfile⟩ | ⟨rfl, hdashes⟩ | ⟨_, _, hoption⟩ := ofBytes_cases arg
    · have hflag : ¬ IsFlag f arg := by simp [← ofBytes_eq_flag_iff, hfile]
      simp [ofArguments, hfile, hflag]
    · have hflag : ¬ IsFlag f dashes := by simp [← ofBytes_eq_flag_iff, hdashes]
      simp [ofArguments, hdashes, ofFiles_ne_inform, hflag]
    · rw [ofArguments_eq_inform_iff_of_isOption hoption, and_comm]
      simp

/-- The command line is one file name, with or without `--`. -/
def AsksFor (args : List Bytes) (p : Path) : Prop :=
  p.bytes ≠ [] ∧ (IsName p.bytes ∧ (args = [p.bytes] ∨ args = [p.bytes, dashes]) ∨ args = [dashes, p.bytes])

/-- The command line begins with the flag, or with a file name and the flag. -/
def AsksAbout (args : List Bytes) (f : Flag) : Prop :=
  ∃ arg rest, IsFlag f arg ∧ (args = arg :: rest ∨ ∃ name, name ≠ [] ∧ IsName name ∧ args = name :: arg :: rest)

lemma asksAbout_cons_iff {first : Bytes} : AsksAbout (first :: args) f ↔
    IsFlag f first ∨ (first ≠ [] ∧ IsName first) ∧ ∃ arg rest, IsFlag f arg ∧ args = arg :: rest := by
  constructor
  · rintro ⟨arg, rest, hflag, hargs | ⟨name, hne, hname, hargs⟩⟩
    · cases hargs
      exact .inl hflag
    · cases hargs
      exact .inr ⟨⟨hne, hname⟩, arg, rest, hflag, rfl⟩
  · rintro (hflag | ⟨⟨hne, hname⟩, arg, rest, hflag, rfl⟩)
    · exact ⟨first, args, hflag, .inl rfl⟩
    · exact ⟨arg, rest, hflag, .inr ⟨first, hne, hname, rfl⟩⟩

/-- A command line is answered with a text exactly when it begins with the flag for it, or with a file name and the
flag. -/
theorem read_eq_inform_iff : read args = inform f ↔ AsksAbout args f := by
  rw [read]
  cases args with
  | nil => simp [ofArguments, ofFile?_ne_inform, AsksAbout]
  | cons first rest =>
    rw [asksAbout_cons_iff]
    obtain ⟨hname, hfile⟩ | ⟨rfl, hdashes⟩ | ⟨hname, _, hoption⟩ := ofBytes_cases first
    · have hflag : ¬ IsFlag f first := by simp [← ofBytes_eq_flag_iff, hfile]
      simp [ofArguments, hfile, ofArguments_some_eq_inform_iff, hname, hflag]
    · have hflag : ¬ IsFlag f dashes := by simp [← ofBytes_eq_flag_iff, hdashes]
      simp [ofArguments, hdashes, ofFiles_ne_inform, not_isName_dashes, hflag]
    · rw [ofArguments_eq_inform_iff_of_isOption hoption]
      simp [hname]

end Request

/-- A command line that is one file name has the file wrapped, one that begins with a flag, or with a file name and a
flag, is answered with the text of the flag, and all others are rejected. -/
theorem run_of_arguments (palette : Palette) (args : List Bytes) (tree : FileTree) :
    (∀ p, Request.read args = .wrap p ↔ Request.AsksFor args p) ∧
    (∀ p, Request.AsksFor args p →
      RunsTo palette tree (.wrap p) (run palette args tree).1 (run palette args tree).2) ∧
    (∀ f, Request.AsksAbout args f → run palette args tree = (⟨0, f.answer.render palette.messages, ""⟩, tree)) ∧
    ((∀ p, ¬ Request.AsksFor args p) → (∀ f, ¬ Request.AsksAbout args f) →
      ∃ m : Misuse, run palette args tree = (⟨2, "", m.message.render palette.messages⟩, tree)) := by
  have hwrap (p : Path) : Request.read args = .wrap p ↔ Request.AsksFor args p := Request.read_eq_wrap_iff
  refine ⟨hwrap, ?_, ?_, ?_⟩
  · intro p hp
    have hruns := runsTo_run palette args tree
    rwa [(hwrap p).mpr hp] at hruns
  · intro f hf
    rw [run_eq, Request.read_eq_inform_iff.mpr hf]
    rfl
  · intro hfile hflag
    cases hread : Request.read args with
    | wrap p => exact absurd ((hwrap p).mp hread) (hfile p)
    | inform f => exact absurd (Request.read_eq_inform_iff.mp hread) (hflag f)
    | misuse m =>
      refine ⟨m, ?_⟩
      rw [run_eq, hread]
      rfl

end ParamsWrap
