import ParamsWrap.Text.Blank

/-!
# UTF-8 lengths and bytes of texts

Positions in a text are counted in the bytes of its UTF-8 form. A file holds a text when its bytes
are the UTF-8 form of that text, and decoding finds the text again.
-/

namespace ParamsWrap

/-- Length of the UTF-8 form of a text. -/
def Text.size (t : Text) : Nat :=
  t.foldr (fun c n => c.utf8Size + n) 0

@[simp]
theorem Text.size_nil : Text.size [] = 0 := rfl

@[simp]
theorem Text.size_cons (c : Char) (t : Text) : Text.size (c :: t) = c.utf8Size + Text.size t := rfl

@[simp]
theorem Text.size_append (s t : Text) : Text.size (s ++ t) = Text.size s + Text.size t := by
  induction s with
  | nil => simp
  | cons c s ih => simp [ih, Nat.add_assoc]

abbrev Bytes := List UInt8

/-- The UTF-8 form of a text. -/
def Text.encode (t : Text) : Bytes :=
  t.flatMap String.utf8EncodeChar

/-- The text whose UTF-8 form the bytes are, if there is one. -/
def Text.decode? (bytes : Bytes) : Option Text :=
  bytes.toByteArray.utf8Decode?.map Array.toList

theorem Text.length_encode (t : Text) : (Text.encode t).length = Text.size t := by
  induction t with
  | nil => rfl
  | cons c t ih => simpa [Text.encode] using ih

theorem Text.decode?_encode (t : Text) : Text.decode? (Text.encode t) = some t := by
  have h := List.utf8Decode?_utf8Encode (l := t)
  rw [List.utf8Encode] at h
  simp [Text.decode?, Text.encode, h]

theorem Bytes.toByteArray_inj {a b : Bytes} (h : a.toByteArray = b.toByteArray) : a = b := by
  have := congrArg ByteArray.data h
  simpa using this

/-- Only the UTF-8 form of a text decodes to it. -/
theorem Text.decode?_eq_some_iff {bytes : Bytes} {t : Text} :
    Text.decode? bytes = some t ↔ bytes = Text.encode t := by
  constructor
  · intro h
    obtain ⟨chars, hchars, rfl⟩ := Option.map_eq_some_iff.mp h
    have hget := ByteArray.utf8Encode_get_utf8Decode? (b := bytes.toByteArray) (h := by simp [hchars])
    apply Bytes.toByteArray_inj
    simpa [hchars, Text.encode, List.utf8Encode] using hget.symm
  · rintro rfl
    exact Text.decode?_encode t

end ParamsWrap
