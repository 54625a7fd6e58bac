import SaeOS.Exec.Stack
import SaeOS.Libsaeos.StartInfo

/-!
# The initial stack, from the kernel to the program

What `build` lays out and places below the top of the stack, `StartInfo` reads back from the stack
pointer (`build_readsBack`): the arguments, the environment and the auxiliary vector, with every read on
the placed bytes. `build` fails exactly where the layout is larger than it may be.
-/

namespace SaeOS.Exec.Stack

open Fs (toLeBytes resize)
open Libsaeos PlacedBytes

variable {memory : PartialMemory} {address n : ℕ} {values : List (List UInt8)}

/-! ## Words -/

theorem readWord_of_holds {value : ℕ} (h : Holds memory address (toLeBytes 8 value))
    (haligned : address % 8 = 0) (hlt : value < 2 ^ 64) : readWord memory address = some value := by
  have hread := h.read
  rw [length_toLeBytes] at hread
  rw [readWord, if_pos haligned, hread, Option.map_some, fromLeBytes_toLeBytes]
  exact congrArg some (Nat.mod_eq_of_lt hlt)

theorem length_words (words : List ℕ) : (words.flatMap (toLeBytes 8)).length = 8 * words.length := by
  induction words with
  | nil => rfl
  | cons word words ih =>
    rw [List.flatMap_cons, List.length_append, ih, length_toLeBytes, List.length_cons]
    omega

/-- The entries of an array of words. -/
theorem entry_of_holds {words : List ℕ} (h : Holds memory address (words.flatMap (toLeBytes 8)))
    (haligned : address % 8 = 0) (hlt : ∀ word ∈ words, word < 2 ^ 64) {index word : ℕ}
    (hword : words[index]? = some word) : entry memory address index = some word := by
  induction words generalizing address index with
  | nil => contradiction
  | cons first words ih =>
    rw [List.flatMap_cons] at h
    obtain ⟨hfirst, hlt⟩ := List.forall_mem_cons.mp hlt
    cases index with
    | zero =>
      obtain rfl := Option.some.inj hword
      exact readWord_of_holds h.left haligned hfirst
    | succ index =>
      have hrest := h.right
      rw [length_toLeBytes] at hrest
      have hentry := ih hrest (by omega) hlt hword
      rw [entry] at hentry ⊢
      rw [← hentry]
      congr 1
      omega

/-! ## Strings -/

theorem stringLength_of_holds {value : List UInt8} (h : Holds memory address (value ++ [0]))
    (hzero : 0 ∉ value) {fuel length : ℕ} (hle : length ≤ value.length)
    (hfuel : value.length - length < fuel) :
    stringLength memory address fuel length = some value.length := by
  induction fuel generalizing length with
  | zero => omega
  | succ fuel ih =>
    have hbyte := h length (by rw [List.length_append, List.length_singleton]; omega)
    rw [stringLength, hbyte]
    by_cases hlt : length < value.length
    · rw [List.getElem?_append_left hlt, List.getElem?_eq_getElem hlt]
      have hne : value[length] ≠ 0 := fun heq => hzero (heq ▸ List.getElem_mem hlt)
      simp only [bind, Option.bind, hne, ne_eq, not_false_eq_true, ↓reduceIte]
      exact ih (by omega) (by omega)
    -- the terminator
    · have heq : length = value.length := by omega
      subst heq
      rw [List.getElem?_append_right (Nat.le_refl _), Nat.sub_self]
      rfl

theorem cString_of_holds {value : List UInt8} (h : Holds memory address (value ++ [0]))
    (hzero : 0 ∉ value) (hlt : value.length < 2 ^ 64) : cString memory address = some value := by
  rw [cString, stringLength_of_holds h hzero (Nat.zero_le _) (by omega)]
  exact h.left.read

/-- The strings one behind the other, each with its terminator. -/
def area (values : List (List UInt8)) : List UInt8 :=
  values.flatMap (· ++ [0])

theorem area_cons (value : List UInt8) (values : List (List UInt8)) :
    area (value :: values) = value ++ [0] ++ area values :=
  List.flatMap_cons

theorem length_lt_area {value : List UInt8} (h : value ∈ values) :
    value.length < (area values).length := by
  induction values with
  | nil => contradiction
  | cons first values ih =>
    rw [area_cons, List.length_append, List.length_append, List.length_singleton]
    rcases List.mem_cons.mp h with rfl | h
    · omega
    · exact Nat.lt_of_lt_of_le (ih h) (Nat.le_add_left _ _)

/-- Where they begin, the first one at `n`. -/
def offsetsFrom (n : ℕ) : List (List UInt8) → List ℕ
  | [] => []
  | value :: values => n :: offsetsFrom (n + (value.length + 1)) values

theorem offsets_eq (strings : List UInt8) (values : List (List UInt8)) :
    offsets strings values = (offsetsFrom strings.length values, strings ++ area values) := by
  induction values generalizing strings with
  | nil => rw [offsets, offsetsFrom, area, List.flatMap_nil, List.append_nil]
  | cons value values ih =>
    rw [offsets, ih, offsetsFrom, area_cons]
    simp only [List.length_append, List.length_singleton, List.append_assoc]

theorem length_offsetsFrom (n : ℕ) (values : List (List UInt8)) :
    (offsetsFrom n values).length = values.length := by
  induction values generalizing n with
  | nil => rfl
  | cons value values ih => rw [offsetsFrom, List.length_cons, List.length_cons, ih]

theorem mem_offsetsFrom {offset : ℕ} (h : offset ∈ offsetsFrom n values) :
    n ≤ offset ∧ offset < n + (area values).length := by
  induction values generalizing n with
  | nil => contradiction
  | cons value values ih =>
    rw [area_cons, List.length_append, List.length_append, List.length_singleton]
    rcases List.mem_cons.mp h with rfl | h
    · omega
    · have hrest := ih h
      omega

/-- The strings stand where their offsets say. -/
theorem holds_of_offsetsFrom (h : Holds memory (address + n) (area values)) {index offset : ℕ}
    {value : List UInt8} (hoffset : (offsetsFrom n values)[index]? = some offset)
    (hvalue : values[index]? = some value) : Holds memory (address + offset) (value ++ [0]) := by
  induction values generalizing n index with
  | nil => contradiction
  | cons first values ih =>
    rw [area_cons] at h
    cases index with
    | zero =>
      obtain rfl := Option.some.inj hoffset
      obtain rfl := Option.some.inj hvalue
      exact h.left
    | succ index =>
      have hrest := h.right
      rw [List.length_append, List.length_singleton, Nat.add_assoc] at hrest
      exact ih hrest hoffset hvalue

/-! ## Pointer arrays -/

theorem countEntries_of_entries {array count : ℕ}
    (hbefore : ∀ index < count, ∃ pointer, entry memory array index = some pointer ∧ pointer ≠ 0)
    (hend : entry memory array count = some 0) {fuel index : ℕ} (hle : index ≤ count)
    (hfuel : count - index < fuel) :
    StartInfo.countEntries memory array fuel index = some count := by
  induction fuel generalizing index with
  | zero => omega
  | succ fuel ih =>
    rw [StartInfo.countEntries]
    by_cases hlt : index < count
    · obtain ⟨pointer, hentry, hne⟩ := hbefore index hlt
      rw [hentry]
      simp only [bind, Option.bind, hne, ne_eq, not_false_eq_true, ↓reduceIte]
      exact ih (by omega) (by omega)
    · have heq : index = count := by omega
      rw [heq, hend]
      rfl

/-- A null-terminated array of pointers to these strings. -/
structure PointsTo (memory : PartialMemory) (array : ℕ) (values : List (List UInt8)) : Prop where
  string : ∀ index value, values[index]? = some value →
    ∃ pointer, entry memory array index = some pointer ∧ pointer ≠ 0 ∧
      cString memory pointer = some value
  null : entry memory array values.length = some 0

theorem PointsTo.count {array : ℕ} (h : PointsTo memory array values)
    (hlt : values.length < 2 ^ 61) :
    StartInfo.countEntries memory array (2 ^ 61) 0 = some values.length := by
  refine countEntries_of_entries (fun index hindex => ?_) h.null (Nat.zero_le _) (by omega)
  obtain ⟨pointer, hentry, hne, -⟩ := h.string index _ (List.getElem?_eq_getElem hindex)
  exact ⟨pointer, hentry, hne⟩

/-- The array of the strings' addresses, with the strings above it. -/
theorem pointsTo_of_holds {array : ℕ}
    (harray : Holds memory array
      (((offsetsFrom n values).map (address + ·) ++ [0]).flatMap (toLeBytes 8)))
    (hstrings : Holds memory (address + n) (area values)) (haligned : array % 8 = 0)
    (haddress : 0 < address) (htop : address + n + (area values).length < 2 ^ 64)
    (hzero : ∀ value ∈ values, 0 ∉ value) : PointsTo memory array values := by
  have hlt : ∀ word ∈ (offsetsFrom n values).map (address + ·) ++ [0], word < 2 ^ 64 := by
    intro word hword
    rcases List.mem_append.mp hword with hword | hword
    · obtain ⟨offset, hoffset, rfl⟩ := List.mem_map.mp hword
      have hbound := mem_offsetsFrom hoffset
      omega
    · rw [List.mem_singleton.mp hword]
      decide
  have hlength := length_offsetsFrom n values
  refine ⟨fun index value hvalue => ?_, ?_⟩
  · have hindex := (List.getElem?_eq_some_iff.mp hvalue).1
    obtain ⟨offset, hoffset⟩ : ∃ offset, (offsetsFrom n values)[index]? = some offset :=
      ⟨_, List.getElem?_eq_getElem (hlength ▸ hindex)⟩
    have hholds := holds_of_offsetsFrom hstrings hoffset hvalue
    refine ⟨address + offset, entry_of_holds harray haligned hlt ?_, by omega,
      cString_of_holds hholds (hzero value (List.mem_of_getElem? hvalue)) ?_⟩
    · rw [List.getElem?_append_left (by rw [List.length_map, hlength]; exact hindex),
        List.getElem?_map, hoffset, Option.map_some]
    · have hmem := length_lt_area (List.mem_of_getElem? hvalue)
      omega
  · refine entry_of_holds harray haligned hlt ?_
    rw [List.getElem?_append_right (by rw [List.length_map, hlength]), List.length_map, hlength,
      Nat.sub_self]
    rfl

/-! ## The auxiliary vector -/

/-- The words of an auxiliary vector. -/
def auxWords (auxv : List (ℕ × ℕ)) : List UInt8 :=
  auxv.flatMap fun (kind, value) => toLeBytes 8 kind ++ toLeBytes 8 value

/-- What an entry of this kind says, the first one if there are several; `AT_NULL` ends the vector. -/
def auxValue (auxv : List (ℕ × ℕ)) (kind : ℕ) : Option ℕ :=
  if kind = atNull then none else (auxv.find? (·.1 = kind)).map Prod.snd

theorem auxFrom_of_holds {auxv : List (ℕ × ℕ)} (kind : ℕ)
    (h : Holds memory address (auxWords (auxv ++ [(atNull, 0)]))) (haligned : address % 8 = 0)
    (hauxv : ∀ entry ∈ auxv, entry.1 ≠ 0 ∧ entry.1 < 2 ^ 64 ∧ entry.2 < 2 ^ 64) {fuel : ℕ}
    (hfuel : auxv.length < fuel) :
    StartInfo.auxFrom memory kind fuel address = some (auxValue auxv kind) := by
  induction auxv generalizing address fuel with
  | nil =>
    obtain ⟨fuel, rfl⟩ := Nat.exists_eq_succ_of_ne_zero (Nat.ne_of_gt (Nat.zero_lt_of_lt hfuel))
    have hkind := readWord_of_holds (Holds.left h.left) haligned (by decide)
    have hvalue := readWord_of_holds (Holds.right h.left) (by rw [length_toLeBytes]; omega) (by decide)
    rw [length_toLeBytes] at hvalue
    rw [StartInfo.auxFrom, hkind, hvalue, auxValue, List.find?_nil, Option.map_none, ite_self]
    rfl
  | cons first auxv ih =>
    obtain ⟨fuel, rfl⟩ := Nat.exists_eq_succ_of_ne_zero (Nat.ne_of_gt (Nat.zero_lt_of_lt hfuel))
    obtain ⟨⟨hne, hlt, hltValue⟩, hauxv⟩ := List.forall_mem_cons.mp hauxv
    have hfirst : Holds memory address (toLeBytes 8 first.1 ++ toLeBytes 8 first.2) := h.left
    have hrest := h.right
    rw [List.length_append, length_toLeBytes, length_toLeBytes] at hrest
    have hkind := readWord_of_holds hfirst.left haligned hlt
    have hvalue := readWord_of_holds hfirst.right (by rw [length_toLeBytes]; omega) hltValue
    rw [length_toLeBytes] at hvalue
    have hnext := ih hrest (by omega) hauxv (Nat.lt_of_succ_lt_succ hfuel)
    rw [StartInfo.auxFrom, hkind, hvalue]
    simp only [bind, Option.bind, Libsaeos.atNull, hne, ↓reduceIte]
    by_cases heq : first.1 = kind
    · subst heq
      simp [auxValue, atNull, hne, pure]
    · rw [if_neg heq, hnext]
      simp [auxValue, heq]

/-! ## The whole stack -/

/-- What a program finds from its stack pointer on. -/
structure ReadsBack (memory : PartialMemory) (stackPointer : ℕ) (argv envp : List (List UInt8))
    (auxv : List (ℕ × ℕ)) (random : List UInt8) (info : StartInfo) (randomAddress : ℕ) : Prop where
  started : StartInfo.fromStack memory stackPointer = some info
  argc : info.argc = argv.length
  arguments : PointsTo memory info.argv argv
  environment : PointsTo memory info.envp envp
  /-- The loop of `from_stack` ends behind the environment. -/
  count : StartInfo.countEntries memory info.envp (2 ^ 61) 0 = some envp.length
  aux : ∀ kind, info.aux memory kind = some (auxValue (auxv ++ [(atRandom, randomAddress)]) kind)
  randomBytes : PlacedBytes.read memory randomAddress random.length = some random

/-- The size of the layout below `top`, with the padding that aligns the stack pointer. -/
def layoutSize (top : ℕ) (argv envp : List (List UInt8)) (auxv : List (ℕ × ℕ)) : ℕ :=
  let strings := (area argv).length + (area envp).length + 16
  let words := 8 * (argv.length + envp.length + 2 * auxv.length + 7)
  strings + words + (top - (strings + words)) % 16

variable {top limit : ℕ} {argv envp : List (List UInt8)} {auxv : List (ℕ × ℕ)}
  {random : Vector UInt8 16}

/-- The bytes of the words from the stack pointer on. -/
def wordBytes (stringsStart : ℕ) (argv envp : List (List UInt8)) (auxv : List (ℕ × ℕ)) :
    List UInt8 :=
  toLeBytes 8 argv.length ++
    (((offsetsFrom 0 argv).map (stringsStart + ·) ++ [0]).flatMap (toLeBytes 8) ++
      (((offsetsFrom (area argv).length envp).map (stringsStart + ·) ++ [0]).flatMap (toLeBytes 8) ++
        auxWords (auxv ++ [(atRandom, stringsStart + ((area argv).length + (area envp).length))] ++
          [(atNull, 0)])))

theorem length_wordBytes (argv envp : List (List UInt8)) (auxv : List (ℕ × ℕ)) (stringsStart : ℕ) :
    (wordBytes stringsStart argv envp auxv).length =
      8 * (argv.length + envp.length + 2 * auxv.length + 7) := by
  have haux : ∀ auxv, (auxWords auxv).length = 16 * auxv.length := by
    intro auxv
    induction auxv with
    | nil => rfl
    | cons first auxv ih =>
      rw [auxWords] at ih ⊢
      rw [List.flatMap_cons, List.length_append, ih]
      simp only [List.length_append, length_toLeBytes, List.length_cons]
      omega
  simp only [wordBytes, List.length_append, length_toLeBytes, length_words, haux, List.length_map,
    length_offsetsFrom, List.length_singleton]
  omega

/-- `build` in terms of its layout. -/
theorem build_eq : build top argv envp auxv random limit =
    if layoutSize top argv envp auxv ≤ top ∧ layoutSize top argv envp auxv ≤ limit then
      .ok ⟨wordBytes (top - ((area argv).length + (area envp).length + 16)) argv envp auxv ++
        List.replicate ((top - ((area argv).length + (area envp).length + 16 +
          8 * (argv.length + envp.length + 2 * auxv.length + 7))) % 16) 0 ++
          (area argv ++ area envp ++ random.toList),
        top - layoutSize top argv envp auxv⟩
    else .error .E2BIG := by
  have hwords := length_wordBytes argv envp auxv
    (top - ((area argv).length + (area envp).length + 16))
  unfold build
  simp only [offsets_eq, List.length_nil, List.nil_append, List.length_append, Vector.length_toList,
    List.length_cons, Nat.zero_add]
  rw [layoutSize]
  split
  · rw [if_neg (by omega)]
  split
  · rw [if_neg (by omega)]
  split
  · rw [if_neg (by omega)]
  · rw [if_pos (by omega)]
    have hbytes : ∀ start : ℕ, toLeBytes 8 argv.length ++
        ((offsetsFrom 0 argv).map fun offset => start + offset).flatMap (toLeBytes 8) ++
        toLeBytes 8 0 ++
        ((offsetsFrom (area argv).length envp).map fun offset => start + offset).flatMap
          (toLeBytes 8) ++ toLeBytes 8 0 ++
        (auxv ++ [(atRandom, start + ((area argv).length + (area envp).length)), (atNull, 0)]).flatMap
          (fun (kind, value) => toLeBytes 8 kind ++ toLeBytes 8 value) =
        wordBytes start argv envp auxv := by
      intro start
      simp only [wordBytes, auxWords, List.flatMap_append, List.flatMap_cons, List.flatMap_nil,
        List.append_nil, List.append_assoc, List.cons_append, List.nil_append]
    rw [hbytes, resize, List.take_of_length_le (by rw [hwords]; omega), hwords]
    congr 4
    · congr 1
      omega
    · omega

/-- `build` fails exactly where the layout is larger than it may be. -/
theorem build_eq_error {e : Errno} : build top argv envp auxv random limit = .error e ↔
    e = .E2BIG ∧ (limit < layoutSize top argv envp auxv ∨ top < layoutSize top argv envp auxv) := by
  rw [build_eq]
  split
  · rename_i hfits
    exact ⟨(by simp), fun h => by omega⟩
  · rename_i hfits
    rw [Except.error.injEq, eq_comm]
    exact ⟨fun h => ⟨h, by omega⟩, And.left⟩

/-- What is built ends at the top of the stack. -/
theorem build_eq_ok {stack : InitialStack} (h : build top argv envp auxv random limit = .ok stack) :
    stack.stackPointer % 16 = 0 ∧ stack.stackPointer + stack.bytes.length = top ∧
      ∃ start pad, stack.bytes = wordBytes start argv envp auxv ++ List.replicate pad 0 ++
          (area argv ++ area envp ++ random.toList) ∧
        start = stack.stackPointer + (wordBytes start argv envp auxv).length + pad := by
  rw [build_eq] at h
  split at h
  · rename_i hfits
    obtain ⟨hle, -⟩ := hfits
    obtain rfl := Except.ok.inj h
    have hwords := length_wordBytes argv envp auxv
      (top - ((area argv).length + (area envp).length + 16))
    rw [layoutSize] at hle
    refine ⟨?_, ?_, _, _, rfl, ?_⟩
    · dsimp only
      rw [layoutSize]
      omega
    · simp only [List.length_append, hwords, List.length_replicate, Vector.length_toList, layoutSize]
      omega
    · rw [hwords]
      dsimp only
      rw [layoutSize]
      omega
  · contradiction

theorem readsBack_of_holds {stackPointer start pad : ℕ}
    (h : Holds memory stackPointer (wordBytes start argv envp auxv ++ List.replicate pad 0 ++
      (area argv ++ area envp ++ random.toList)))
    (haligned : stackPointer % 16 = 0)
    (hstart : start = stackPointer + (wordBytes start argv envp auxv).length + pad)
    (htop : start + ((area argv).length + (area envp).length + 16) < 2 ^ 64)
    (hargv : ∀ value ∈ argv, 0 ∉ value) (henvp : ∀ value ∈ envp, 0 ∉ value)
    (hauxv : ∀ entry ∈ auxv, entry.1 ≠ 0 ∧ entry.1 < 2 ^ 64 ∧ entry.2 < 2 ^ 64) :
    ∃ info, ReadsBack memory stackPointer argv envp auxv random.toList info
      (start + ((area argv).length + (area envp).length)) := by
  have hwords := length_wordBytes argv envp auxv start
  -- the strings stand behind the words and the padding
  have hstrings : Holds memory start (area argv ++ area envp ++ random.toList) := by
    have hright := h.right
    rw [List.length_append, List.length_replicate, ← Nat.add_assoc, ← hstart] at hright
    exact hright
  have harguments : Holds memory (start + 0) (area argv) := hstrings.left.left
  have henvironment := hstrings.left.right
  have hrandom := hstrings.right
  rw [List.length_append] at hrandom
  -- the words, one group behind the other
  have hall := h.left.left
  rw [wordBytes] at hall
  have hargc := readWord_of_holds hall.left (by omega) (by omega)
  have hrest := hall.right
  rw [length_toLeBytes] at hrest
  have hargvWords := hrest.left
  have hrest := hrest.right
  rw [length_words, List.length_append, List.length_map, length_offsetsFrom, List.length_singleton]
    at hrest
  have henvpWords := hrest.left
  have hrest := hrest.right
  rw [length_words, List.length_append, List.length_map, length_offsetsFrom, List.length_singleton]
    at hrest
  have hargvPoints := pointsTo_of_holds hargvWords harguments (by omega) (by omega) (by omega) hargv
  have henvpPoints := pointsTo_of_holds henvpWords henvironment (by omega) (by omega) (by omega) henvp
  have hcount := henvpPoints.count (by omega)
  refine ⟨⟨argv.length, stackPointer + 8, stackPointer + 8 + 8 * (argv.length + 1),
    stackPointer + 8 + 8 * (argv.length + 1) + 8 * (envp.length + 1)⟩, ?_, rfl, hargvPoints,
    henvpPoints, hcount, fun kind => ?_, ?_⟩
  · rw [StartInfo.fromStack, hargc]
    simp only [bind, Option.bind, hcount]
    rfl
  · refine auxFrom_of_holds kind hrest (by omega) ?_ ?_
    · intro entry hentry
      rcases List.mem_append.mp hentry with hentry | hentry
      · exact hauxv entry hentry
      · rw [List.mem_singleton.mp hentry]
        exact ⟨Nat.succ_ne_zero _, by simp only [atRandom]; omega, by dsimp only; omega⟩
    · rw [List.length_append, List.length_singleton]
      omega
  · exact hrandom.read

theorem readsBack_of_build {stack : InitialStack} (htop : top < 2 ^ 64)
    (hargv : ∀ value ∈ argv, 0 ∉ value) (henvp : ∀ value ∈ envp, 0 ∉ value)
    (hauxv : ∀ entry ∈ auxv, entry.1 ≠ 0 ∧ entry.1 < 2 ^ 64 ∧ entry.2 < 2 ^ 64)
    (h : build top argv envp auxv random limit = .ok stack) :
    ∃ info randomAddress, ReadsBack (place (top - stack.bytes.length) stack.bytes)
      stack.stackPointer argv envp auxv random.toList info randomAddress := by
  obtain ⟨haligned, hend, start, pad, hbytes, hstart⟩ := build_eq_ok h
  have hlength := congrArg List.length hbytes
  simp only [List.length_append, List.length_replicate, Vector.length_toList] at hlength
  have hplaced : top - stack.bytes.length = stack.stackPointer := by omega
  have hholds : Holds (place stack.stackPointer stack.bytes) stack.stackPointer stack.bytes := holds_place
  rw [hplaced]
  generalize place stack.stackPointer stack.bytes = memory at hholds ⊢
  rw [hbytes] at hholds
  obtain ⟨info, hreads⟩ := readsBack_of_holds hholds haligned hstart (by omega) hargv henvp hauxv
  exact ⟨info, _, hreads⟩

/-- What `build` lays out ends at `top`, and a program reads it back from its stack pointer without
leaving it; an own entry of the caller for `AT_RANDOM` comes first. `build` fails exactly where the layout
is larger than the limit or than the space below `top`. -/
theorem build_readsBack (htop : top < 2 ^ 64) (hargv : ∀ value ∈ argv, 0 ∉ value)
    (henvp : ∀ value ∈ envp, 0 ∉ value)
    (hauxv : ∀ entry ∈ auxv, entry.1 ≠ 0 ∧ entry.1 < 2 ^ 64 ∧ entry.2 < 2 ^ 64) :
    (∀ e, build top argv envp auxv random limit = .error e ↔ e = .E2BIG ∧
      (limit < layoutSize top argv envp auxv ∨ top < layoutSize top argv envp auxv)) ∧
    ∀ stack, build top argv envp auxv random limit = .ok stack →
      stack.stackPointer % 16 = 0 ∧ stack.stackPointer + stack.bytes.length = top ∧
      ∃ info randomAddress, ReadsBack (place (top - stack.bytes.length) stack.bytes)
          stack.stackPointer argv envp auxv random.toList info randomAddress ∧
        ((∀ entry ∈ auxv, entry.1 ≠ atRandom) →
          info.aux (place (top - stack.bytes.length) stack.bytes) atRandom =
            some (some randomAddress)) := by
  refine ⟨fun e => build_eq_error, fun stack h => ?_⟩
  obtain ⟨haligned, hend, -⟩ := build_eq_ok h
  obtain ⟨info, randomAddress, hreads⟩ := readsBack_of_build htop hargv henvp hauxv h
  refine ⟨haligned, hend, info, randomAddress, hreads, fun hrandom => ?_⟩
  -- no other entry of this kind comes first
  have hnone : auxv.find? (·.1 = atRandom) = none := by
    rw [List.find?_eq_none]
    intro entry hentry
    simpa using hrandom entry hentry
  rw [hreads.aux, auxValue, if_neg (by decide), List.find?_append, hnone]
  simp

/-- `sh -c` with an empty command, two environment strings and an entry that is given twice. -/
theorem build_readsBack_shell :
    let argv : List (List UInt8) := [[115, 104], [45, 99], []]
    let envp : List (List UInt8) := [[65, 61, 49], [80, 65, 84, 72, 61, 47]]
    let auxv : List (ℕ × ℕ) := [(6, 4096), (6, 1), (9, 4194304)]
    ∃ stack info randomAddress, build 8192 argv envp auxv (.replicate 16 9) 4096 = .ok stack ∧
      stack.stackPointer % 16 = 0 ∧ stack.stackPointer + stack.bytes.length = 8192 ∧
      ReadsBack (place (8192 - stack.bytes.length) stack.bytes) stack.stackPointer argv envp auxv
        (Vector.replicate 16 9).toList info randomAddress ∧
      info.aux (place (8192 - stack.bytes.length) stack.bytes) 6 = some (some 4096) ∧
      info.aux (place (8192 - stack.bytes.length) stack.bytes) atRandom = some (some randomAddress) ∧
      ∀ e, build 8192 argv envp auxv (.replicate 16 9) 191 = .error e ↔ e = .E2BIG := by
  intro argv envp auxv
  have hsize : layoutSize 8192 argv envp auxv = 192 := by decide
  obtain ⟨stack, hstack⟩ : ∃ stack, build 8192 argv envp auxv (.replicate 16 9) 4096 = .ok stack := by
    rw [build_eq, hsize, if_pos (by decide)]
    exact ⟨_, rfl⟩
  have hfails := (@build_readsBack 8192 191 argv envp auxv (.replicate 16 9) (by decide) (by decide)
    (by decide) (by decide)).1
  obtain ⟨haligned, hend, info, randomAddress, hreads, hrandom⟩ :=
    (build_readsBack (by decide) (by decide) (by decide) (by decide)).2 stack hstack
  refine ⟨stack, info, randomAddress, hstack, haligned, hend, hreads, hreads.aux 6, hrandom (by decide), ?_⟩
  intro e
  rw [hfails, hsize]
  exact and_iff_left (.inl (by decide))

/-- A caller's own `AT_RANDOM` is what a program finds, wherever it points. -/
theorem not_random_of_own_entry : ∃ stack info,
    build 4096 [] [] [(atRandom, 7)] (.replicate 16 9) 4096 = .ok stack ∧
      StartInfo.fromStack (place (4096 - stack.bytes.length) stack.bytes) stack.stackPointer =
        some info ∧
      info.aux (place (4096 - stack.bytes.length) stack.bytes) atRandom = some (some 7) ∧
      PlacedBytes.read (place (4096 - stack.bytes.length) stack.bytes) 7 16 = none := by
  have hsize : layoutSize 4096 [] [] [(atRandom, 7)] = 96 := by decide
  obtain ⟨stack, hstack⟩ : ∃ stack,
      build 4096 [] [] [(atRandom, 7)] (.replicate 16 9) 4096 = .ok stack := by
    rw [build_eq, hsize, if_pos (by decide)]
    exact ⟨_, rfl⟩
  have hpointer : stack.stackPointer = 4000 := by
    have hok := hstack
    rw [build_eq, hsize, if_pos (by decide)] at hok
    exact (congrArg InitialStack.stackPointer (Except.ok.inj hok)).symm
  obtain ⟨-, hend, -⟩ := build_eq_ok hstack
  obtain ⟨info, randomAddress, hreads⟩ :=
    readsBack_of_build (by decide) (by decide) (by decide) (by decide) hstack
  refine ⟨stack, info, hstack, hreads.started, hreads.aux atRandom, ?_⟩
  rw [show 4096 - stack.bytes.length = 4000 by omega]
  rfl

end SaeOS.Exec.Stack
