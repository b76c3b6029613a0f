import ParamsWrap.Proofs.CallParts
import ParamsWrap.Proofs.Cut
import Mathlib.Algebra.BigOperators.Group.List.Basic
import Mathlib.Algebra.GroupWithZero.Nat
import Mathlib.Algebra.Ring.Int.Defs
import Mathlib.Data.List.Basic

/-!
# Gaps and calls

A text with calls is its gaps, what stands before, between and behind the calls, woven with the texts of
the calls. Wrapping weaves the same gaps with other texts. Where a call stands is told by the gaps and the
calls before it.
-/

namespace ParamsWrap

/-- Puts the texts one by one between the gaps, of which there is one more. -/
def weave : List Text → List Text → Text
  | [], _ => []
  | g :: _, [] => g
  | g :: gs, x :: xs => g ++ (x ++ weave gs xs)

lemma modifyHead_nil_append (gs : List Text) : gs.modifyHead ([] ++ ·) = gs := by
  cases gs with
  | nil => rfl
  | cons g gs => rfl

namespace Piece

def site? : Piece → Option Site
  | char _ => none
  | site s => some s

def fill (f : Site → Text) : Piece → Text
  | char c => [c]
  | site s => f s

lemma text_eq_fill : text = fill Site.text := by
  funext p
  cases p with
  | char c => rfl
  | site s => rfl

lemma wrapped_eq_fill : wrapped = fill Site.wrapped := by
  funext p
  cases p with
  | char c => rfl
  | site s => rfl

end Piece

def sites (ps : List Piece) : List Site := ps.filterMap Piece.site?

@[simp] lemma sites_char (c : Char) (ps : List Piece) : sites (.char c :: ps) = sites ps := rfl

@[simp] lemma sites_site (s : Site) (ps : List Piece) : sites (.site s :: ps) = s :: sites ps := rfl

/-- The characters before the first site, between neighbours, and behind the last site. -/
def gapsOf : List Piece → List Text
  | [] => [[]]
  | .char c :: rest => (gapsOf rest).modifyHead (c :: ·)
  | .site _ :: rest => [] :: gapsOf rest

/-- What stands outside of the calls of a text. -/
def gaps (t : Text) : List Text := gapsOf (pieces t)

lemma sites_loose_append (loose : Text) (ps : List Piece) : sites (loose.map .char ++ ps) = sites ps := by
  induction loose with
  | nil => rfl
  | cons c loose ih => exact ih

lemma gapsOf_loose_append (loose : Text) (ps : List Piece) :
    gapsOf (loose.map .char ++ ps) = (gapsOf ps).modifyHead (loose ++ ·) := by
  induction loose with
  | nil => exact (modifyHead_nil_append _).symm
  | cons c loose ih =>
    rw [List.map_cons, List.cons_append, gapsOf, ih, List.modifyHead_modifyHead]
    rfl

lemma length_gapsOf (ps : List Piece) : (gapsOf ps).length = (sites ps).length + 1 := by
  induction ps with
  | nil => rfl
  | cons p ps ih =>
    cases p with
    | char c => simpa [gapsOf] using ih
    | site s => simpa [gapsOf] using ih

lemma weave_modifyHead (c : Char) {gs : List Text} (h : gs ≠ []) (xs : List Text) :
    weave (gs.modifyHead (c :: ·)) xs = c :: weave gs xs := by
  cases gs with
  | nil => exact absurd rfl h
  | cons g gs =>
    cases xs with
    | nil => rfl
    | cons x xs => rfl

/-- Weaving the gaps with a text for each site fills the sites with these texts. -/
theorem weave_gapsOf (f : Site → Text) (ps : List Piece) :
    weave (gapsOf ps) ((sites ps).map f) = ps.flatMap (Piece.fill f) := by
  induction ps with
  | nil => rfl
  | cons p ps ih =>
    have hne : gapsOf ps ≠ [] := List.ne_nil_of_length_eq_add_one (length_gapsOf ps)
    cases p with
    | char c =>
      rw [gapsOf, List.flatMap_cons, Piece.fill, ← ih]
      exact weave_modifyHead c hne _
    | site s =>
      rw [gapsOf, List.flatMap_cons, Piece.fill, ← ih]
      rfl

/-- What adds up over texts adds up over gaps and what is woven between them. -/
lemma sum_weave {m : Text → Nat} (hm : ∀ s t, m (s ++ t) = m s + m t) {gs xs : List Text}
    (h : gs.length = xs.length + 1) : m (weave gs xs) = (gs.map m).sum + (xs.map m).sum := by
  induction xs generalizing gs with
  | nil =>
    obtain ⟨g, rfl⟩ := List.length_eq_one_iff.mp h
    simp [weave]
  | cons x xs ih =>
    cases gs with
    | nil => cases h
    | cons g gs =>
      have hlen : gs.length = xs.length + 1 := by simpa using h
      simp only [weave, hm, ih hlen, List.map_cons, List.sum_cons]
      omega

lemma size_weave {gs xs : List Text} (h : gs.length = xs.length + 1) :
    Text.size (weave gs xs) = (gs.map Text.size).sum + (xs.map Text.size).sum :=
  sum_weave Text.size_append h

/-- Where each of the texts between the gaps grows by `n`, the whole grows by `n` for each of them. -/
lemma weave_map_add {α : Type} {m : Text → Nat} (hm : ∀ s t, m (s ++ t) = m s + m t) {f g : α → Text} {n : Nat}
    (hgrow : ∀ a, m (g a) = m (f a) + n) {gs : List Text} {as : List α} (h : gs.length = as.length + 1) :
    m (weave gs (as.map g)) = m (weave gs (as.map f)) + n * as.length := by
  have hlen (k : α → Text) : gs.length = (as.map k).length + 1 := by rw [List.length_map, h]
  have hsum : ((as.map g).map m).sum = ((as.map f).map m).sum + n * as.length := by
    simp [Function.comp_def, hgrow, List.sum_map_add, Nat.mul_comm]
  rw [sum_weave hm (hlen g), sum_weave hm (hlen f), hsum, Nat.add_assoc]

lemma weave_eq_append {gs xs : List Text} (h : gs.length = xs.length + 1) {i : Nat} {x : Text}
    (hx : xs[i]? = some x) : ∃ after, weave gs xs = weave (gs.take (i + 1)) (xs.take i) ++ (x ++ after) := by
  induction i generalizing gs xs with
  | zero =>
    cases xs with
    | nil => cases hx
    | cons y xs =>
      obtain ⟨g, gs, rfl⟩ := List.exists_cons_of_length_eq_add_one h
      obtain rfl : y = x := by simpa using hx
      exact ⟨weave gs xs, rfl⟩
  | succ i ih =>
    cases xs with
    | nil => cases hx
    | cons y xs =>
      obtain ⟨g, gs, rfl⟩ := List.exists_cons_of_length_eq_add_one h
      have hlen : gs.length = xs.length + 1 := by simpa using h
      have hget : xs[i]? = some x := by simpa using hx
      obtain ⟨after, hafter⟩ := ih hlen hget
      exact ⟨after, by simp [weave, hafter]⟩

/-! ### Where the calls stand -/

lemma exists_of_mem_locate {start : Nat} {ps : List Piece} {c : Call} (h : c ∈ locate start ps) :
    ∃ before after, ps = before ++ .site c.site :: after ∧
      c.start = start + Text.size (before.flatMap Piece.text) := by
  induction ps generalizing start with
  | nil => cases h
  | cons p ps ih =>
    cases p with
    | char d =>
      obtain ⟨before, after, rfl, hstart⟩ := ih h
      exact ⟨.char d :: before, after, rfl, by simp [hstart, Piece.text, Nat.add_assoc]⟩
    | site s =>
      rcases List.mem_cons.mp h with rfl | h
      · exact ⟨[], ps, rfl, rfl⟩
      · obtain ⟨before, after, rfl, hstart⟩ := ih h
        exact ⟨.site s :: before, after, rfl, by simp [hstart, Piece.text, Nat.add_assoc]⟩

/-- A call of a text splits it into what stands before, the call itself, and what stands behind. -/
theorem exists_of_mem_calls {t : Text} {c : Call} (h : c ∈ calls t) :
    ∃ before after, t = before ++ (c.text ++ after) ∧ c.start = before.size := by
  obtain ⟨before, after, hps, hstart⟩ := exists_of_mem_locate h
  refine ⟨before.flatMap Piece.text, after.flatMap Piece.text, ?_, by omega⟩
  rw [← flatMap_text_pieces t, hps, List.flatMap_append, List.flatMap_cons]
  rfl

lemma pairwise_locate (start : Nat) (ps : List Piece) :
    (locate start ps).Pairwise fun c d => c.stop ≤ d.start := by
  induction ps generalizing start with
  | nil => exact .nil
  | cons p ps ih =>
    cases p with
    | char d => exact ih (start + d.utf8Size)
    | site s =>
      refine .cons ?_ (ih (start + s.text.size))
      intro d hd
      obtain ⟨_, _, _, hstart⟩ := exists_of_mem_locate hd
      rw [hstart]
      exact Nat.le_add_right _ _

lemma locate_loose_append (start : Nat) (loose : Text) (ps : List Piece) :
    locate start (loose.map .char ++ ps) = locate (start + loose.size) ps := by
  induction loose generalizing start with
  | nil => rfl
  | cons c loose ih => rw [List.map_cons, List.cons_append, locate, ih, Text.size_cons, Nat.add_assoc]

/-- A call begins behind what is woven of the gaps up to it and of the texts of the calls before it. -/
theorem getElem?_locate_retouch (f : Site → Site) (loose : Text) (start : Nat) (ps : List Piece) (i : Nat) :
    (locate start (ps.flatMap (Piece.retouch f loose)))[i]? = (sites ps)[i]?.map fun s =>
      ⟨start + (weave ((gapsOf ps).take (i + 1))
        (((sites ps).map fun s => (f s).text ++ loose).take i)).size, f s⟩ := by
  induction ps generalizing start i with
  | nil => simp [locate, sites]
  | cons p ps ih =>
    cases p with
    | char c =>
      have hne : (gapsOf ps).take (i + 1) ≠ [] := by
        apply List.ne_nil_of_length_pos
        rw [List.length_take, length_gapsOf]
        omega
      have hstep : locate start ((Piece.char c :: ps).flatMap (Piece.retouch f loose)) =
          locate (start + c.utf8Size) (ps.flatMap (Piece.retouch f loose)) := rfl
      rw [hstep, ih, gapsOf, List.take_modifyHead, weave_modifyHead c hne]
      simp only [Text.size_cons, Nat.add_assoc]
      rfl
    | site s =>
      have hstep : locate start ((Piece.site s :: ps).flatMap (Piece.retouch f loose)) = ⟨start, f s⟩ ::
          locate (start + (f s).text.size + loose.size) (ps.flatMap (Piece.retouch f loose)) := by
        rw [List.flatMap_cons, Piece.retouch, List.cons_append, locate, locate_loose_append]
      cases i with
      | zero =>
        rw [hstep]
        simp [gapsOf, weave]
      | succ i =>
        rw [hstep, List.getElem?_cons_succ, ih]
        simp [gapsOf, weave, Nat.add_assoc]

lemma retouch_id : Piece.retouch id [] = fun p => [p] := by
  funext p
  cases p with
  | char c => rfl
  | site s => rfl

theorem getElem?_calls (t : Text) (i : Nat) :
    (calls t)[i]? = (sites (pieces t))[i]?.map fun s =>
      ⟨(weave ((gaps t).take (i + 1)) (((sites (pieces t)).map Site.text).take i)).size, s⟩ := by
  have h := getElem?_locate_retouch id [] 0 (pieces t) i
  rw [retouch_id, List.flatMap_singleton'] at h
  simpa [calls, gaps] using h

lemma map_site_calls (t : Text) : (calls t).map Call.site = sites (pieces t) := by
  apply List.ext_getElem?
  intro i
  rw [List.getElem?_map, getElem?_calls, Option.map_map]
  simp [Function.comp_def]

lemma map_calls (f : Site → Text) (t : Text) :
    (calls t).map (fun c => f c.site) = (sites (pieces t)).map f := by
  rw [← map_site_calls, List.map_map]
  rfl

lemma map_text_calls (t : Text) : (calls t).map Call.text = (sites (pieces t)).map Site.text :=
  map_calls Site.text t

lemma map_wrapped_calls (t : Text) : (calls t).map Call.wrapped = (sites (pieces t)).map Site.wrapped :=
  map_calls Site.wrapped t

/-- A call begins behind the gaps up to it and the calls before it. -/
theorem start_eq_size_weave {t : Text} {i : Nat} {c : Call} (h : (calls t)[i]? = some c) :
    c.start = Text.size (weave ((gaps t).take (i + 1)) (((calls t).take i).map Call.text)) := by
  rw [getElem?_calls, Option.map_eq_some_iff] at h
  obtain ⟨s, _, rfl⟩ := h
  rw [List.map_take, map_text_calls]

lemma length_gaps (t : Text) : (gaps t).length = (calls t).length + 1 := by
  rw [gaps, length_gapsOf, ← map_site_calls, List.length_map]

lemma weave_calls_eq_append (f : Call → Text) {t : Text} {i : Nat} {c : Call} (hc : (calls t)[i]? = some c) :
    ∃ after, weave (gaps t) ((calls t).map f) =
      weave ((gaps t).take (i + 1)) (((calls t).take i).map f) ++ (f c ++ after) := by
  have hlen : (gaps t).length = ((calls t).map f).length + 1 := by rw [List.length_map, length_gaps]
  have hget : ((calls t).map f)[i]? = some (f c) := by
    rw [List.getElem?_map, hc]
    rfl
  rw [List.map_take]
  exact weave_eq_append hlen hget

theorem weave_text (t : Text) : weave (gaps t) ((calls t).map Call.text) = t := by
  rw [gaps, map_text_calls, weave_gapsOf, ← Piece.text_eq_fill, flatMap_text_pieces]

theorem weave_wrapped (t : Text) : weave (gaps t) ((calls t).map Call.wrapped) = wrap t := by
  rw [gaps, map_wrapped_calls, weave_gapsOf, ← Piece.wrapped_eq_fill, wrap]

end ParamsWrap
