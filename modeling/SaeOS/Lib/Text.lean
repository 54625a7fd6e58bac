import Mathlib.Tactic.Linarith

/-!
# Text and its bytes

Text is a sequence of Unicode scalar values, and its bytes are their UTF-8 encodings. Checked text is
read back from its bytes; a zero byte stands for the zero character and for no other.
-/

/-- A string of the language. -/
abbrev Text := List Char

namespace Text

/-- All characters of a text are looked at, not all characters there are. -/
instance decidableForallMem (p : Char → Prop) [DecidablePred p] (text : Text) :
    Decidable (∀ character ∈ text, p character) :=
  List.decidableBAll p text

/-- `as_bytes`. -/
def asBytes (text : Text) : List UInt8 :=
  text.flatMap String.utf8EncodeChar

/-- `from_utf8`. -/
def fromUtf8 (bytes : List UInt8) : Option Text :=
  bytes.toByteArray.utf8Decode?.map Array.toList

/-- Whether a character starts the bytes, and how many bytes it or the broken sequence in its place has:
the longest beginning of a character. -/
def scanChar (bytes : List UInt8) : Bool × ℕ :=
  let byteAt := fun i => bytes.getD i 0
  let first := byteAt 0
  let follows := fun i => byteAt i &&& 0xc0 = 0x80
  -- overlong forms, surrogates and numbers past the last one are told by the second byte
  let second := (first = 0xe0 → 0xa0 ≤ byteAt 1) ∧ (first = 0xed → byteAt 1 ≤ 0x9f) ∧
    (first = 0xf0 → 0x90 ≤ byteAt 1) ∧ (first = 0xf4 → byteAt 1 ≤ 0x8f)
  if first < 0x80 then (true, 1)
  else if first < 0xc2 ∨ 0xf4 < first then (false, 1)
  else if ¬ follows 1 ∨ ¬ second then (false, 1)
  else if first < 0xe0 then (true, 2)
  else if ¬ follows 2 then (false, 2)
  else if first < 0xf0 then (true, 3)
  else if ¬ follows 3 then (false, 3)
  else (true, 4)

/-- Every broken sequence becomes one replacement character. -/
def replaceInvalid : ℕ → List UInt8 → Text
  | _, [] => []
  | 0, _ => []
  | fuel + 1, bytes =>
    let (valid, length) := scanChar bytes
    (if valid then (fromUtf8 (bytes.take length)).getD [] else ['\uFFFD']) ++
      replaceInvalid fuel (bytes.drop length)

/-- `String::from_utf8_lossy`. -/
def fromUtf8Lossy (bytes : List UInt8) : Text :=
  match fromUtf8 bytes with
  | some text => text
  | none => replaceInvalid bytes.length bytes

/-- Strings are ordered by their bytes. -/
def order (a b : Text) : Ordering :=
  compareOn asBytes a b

variable {text text' : Text}

@[simp]
theorem fromUtf8_asBytes (text : Text) : fromUtf8 (asBytes text) = some text := by
  have hdecode := List.utf8Decode?_utf8Encode (l := text)
  rw [List.utf8Encode] at hdecode
  rw [fromUtf8, asBytes, hdecode, Option.map_some, List.toList_toArray]

theorem eq_asBytes_of_fromUtf8 {bytes : List UInt8} (h : fromUtf8 bytes = some text) :
    bytes = asBytes text := by
  obtain ⟨chars, hchars, rfl⟩ := Option.map_eq_some_iff.mp h
  have hsome : bytes.toByteArray.utf8Decode?.isSome = true := by
    rw [hchars]
    rfl
  have hencode := ByteArray.utf8Encode_get_utf8Decode? (h := hsome)
  simp only [hchars, Option.get_some] at hencode
  have hdata := congrArg ByteArray.data hencode
  rw [List.utf8Encode, List.data_toByteArray, List.data_toByteArray] at hdata
  exact (congrArg Array.toList hdata).symm

@[simp]
theorem fromUtf8Lossy_asBytes (text : Text) : fromUtf8Lossy (asBytes text) = text := by
  rw [fromUtf8Lossy, fromUtf8_asBytes]

theorem asBytes_injective : Function.Injective asBytes := by
  intro a b h
  have hread := fromUtf8_asBytes a
  rw [h, fromUtf8_asBytes, Option.some.injEq] at hread
  exact hread.symm

@[simp]
theorem asBytes_nil : asBytes [] = [] :=
  rfl

theorem asBytes_append (a b : Text) : asBytes (a ++ b) = asBytes a ++ asBytes b :=
  List.flatMap_append

theorem asBytes_eq_nil : asBytes text = [] ↔ text = [] := by
  constructor
  · intro h
    exact asBytes_injective (h.trans asBytes_nil.symm)
  · rintro rfl
    rfl

theorem zero_ne_ofNat {n : ℕ} (hpos : 0 < n) (hlt : n < 256) : 0 ≠ UInt8.ofNat n := by
  intro h
  have hnat := congrArg UInt8.toNat h
  rw [UInt8.toNat_ofNat', Nat.mod_eq_of_lt hlt] at hnat
  exact absurd hnat (by simpa using hpos.ne)

theorem zero_mem_utf8EncodeChar {c : Char} : 0 ∈ String.utf8EncodeChar c ↔ c = '\x00' := by
  constructor
  · intro h
    unfold String.utf8EncodeChar at h
    by_cases hone : c.val.toNat ≤ 0x7f
    · rw [if_pos hone, List.mem_singleton] at h
      refine Char.ext (UInt32.toNat_inj.mp ?_)
      by_contra hne
      exact zero_ne_ofNat (Nat.pos_of_ne_zero hne) (by omega) h
    · -- the bytes of a longer encoding have their top bit set
      rw [if_neg hone] at h
      exfalso
      split at h
      · simp only [List.mem_cons, List.not_mem_nil, or_false] at h
        rcases h with h | h <;> exact zero_ne_ofNat (by omega) (by omega) h
      split at h
      · simp only [List.mem_cons, List.not_mem_nil, or_false] at h
        rcases h with h | h | h <;> exact zero_ne_ofNat (by omega) (by omega) h
      · simp only [List.mem_cons, List.not_mem_nil, or_false] at h
        rcases h with h | h | h | h <;> exact zero_ne_ofNat (by omega) (by omega) h
  · rintro rfl
    decide

theorem zero_mem_asBytes : 0 ∈ asBytes text ↔ '\x00' ∈ text := by
  simp only [asBytes, List.mem_flatMap, zero_mem_utf8EncodeChar, exists_eq_right]

instance : Std.TransCmp order :=
  inferInstanceAs (Std.TransCmp (compareOn asBytes))

instance : Std.LawfulEqCmp order where
  eq_of_compare h := asBytes_injective (Std.LawfulEqOrd.eq_of_compare h)

/-! ## Separators -/

section Separators

variable {α : Type*} [DecidableEq α] {l part : List α} {x : α} {back : ℕ}

theorem notMem_of_mem_splitOn (h : part ∈ l.splitOn x) : x ∉ part := by
  induction l generalizing part with
  | nil =>
    rw [List.splitOn_nil, List.mem_singleton] at h
    rw [h]
    exact List.not_mem_nil
  | cons a l ih =>
    rw [List.splitOn_cons_eq_if_modifyHead] at h
    split at h
    · rcases List.mem_cons.mp h with rfl | h
      · exact List.not_mem_nil
      · exact ih h
    · rename_i hne
      cases hparts : l.splitOn x with
      | nil => exact absurd hparts (List.splitOn_ne_nil x l)
      | cons first parts =>
        rw [hparts] at h ih
        rcases List.mem_cons.mp h with rfl | h
        -- only the first part begins with `a`
        · have hfirst := ih List.mem_cons_self
          simp only [beq_iff_eq] at hne
          simp [hfirst, Ne.symm hne]
        · exact ih (List.mem_cons_of_mem _ h)

/-- Where the search from the end finds a separator, it is the last one. -/
theorem eq_of_findIdx?_reverse (h : l.reverse.findIdx? (· == x) = some back) :
    back < l.length ∧ l = l.take (l.length - 1 - back) ++ x :: l.drop (l.length - back) ∧
      x ∉ l.drop (l.length - back) := by
  obtain ⟨hlt, hfound, hbefore⟩ := List.findIdx?_eq_some_iff_getElem.mp h
  rw [List.length_reverse] at hlt
  rw [List.getElem_reverse, beq_iff_eq] at hfound
  have hdrop : l.length - back = l.length - 1 - back + 1 := by omega
  refine ⟨hlt, ?_, fun hmem => ?_⟩
  · rw [hdrop, ← hfound, List.getElem_cons_drop, List.take_append_drop]
  · obtain ⟨j, hj, hget⟩ := List.mem_iff_getElem.mp hmem
    rw [List.length_drop] at hj
    rw [List.getElem_drop] at hget
    -- the reverse list has this one before the first one
    refine hbefore (back - 1 - j) (by omega) ?_
    rw [List.getElem_reverse, beq_iff_eq, ← hget]
    congr 1
    omega

theorem notMem_of_findIdx?_reverse (h : l.reverse.findIdx? (· == x) = none) : x ∉ l := by
  rw [List.findIdx?_eq_none_iff] at h
  intro hmem
  exact absurd (h x (List.mem_reverse.mpr hmem)) (by simp)

end Separators

end Text
