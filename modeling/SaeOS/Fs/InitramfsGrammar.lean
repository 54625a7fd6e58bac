import SaeOS.Fs.InitramfsRoundTrip
import Mathlib.Data.List.TakeWhile
import Mathlib.Data.Nat.Digits.Lemmas

/-!
# The grammar that the initramfs parser accepts

The format as the head comment of `kernel/src/fs/initramfs.rs` gives it, with every number and every
length that an entry must have, and the proof that `parse` accepts it and nothing else.

* `Newc`: one well-formed entry. Its fields are digits, its lengths are those that its fields say.
* `Archive`: members, a trailer, and zeros.
* `readMember_iff`: the first half of the parser's loop reads exactly the well-formed entries.
* `parseFrom_iff`, `tail_iff`: the loop accepts exactly the non-empty concatenations of archives.
* `advances`: every round of the loop moves forward, so that the loop ends by itself.
* `Tail.body_isPrefix`: a part that is accepted has all of the archive but some of its last zeros.
-/

namespace SaeOS.Initramfs

open Text

/-! ## Fields -/

/-- Eight hexadecimal digits. -/
structure Field where
  digits : List UInt8
  length_eq : digits.length = 8
  isHex : ∀ byte ∈ digits, (toDigit byte).isSome

/-- The number that digits stand for, the last digit for the ones. -/
def digitsValue (digits : List UInt8) : ℕ :=
  Nat.ofDigits 16 (digits.reverse.map fun byte => (toDigit byte).getD 0)

def Field.value (field : Field) : ℕ :=
  digitsValue field.digits

theorem toDigit_lt {byte : UInt8} {digit : ℕ} (h : toDigit byte = some digit) : digit < 16 := by
  unfold toDigit at h
  simp only [UInt8.le_iff_toNat_le] at h
  have hbounds : (0x39 : UInt8).toNat = 0x39 ∧ (0x66 : UInt8).toNat = 0x66 ∧
      (0x46 : UInt8).toNat = 0x46 := ⟨rfl, rfl, rfl⟩
  split_ifs at h
  all_goals
    obtain rfl := Option.some.inj h
    omega

theorem hex_append (digits : List UInt8) (byte : UInt8) :
    hex (digits ++ [byte]) = hex digits >>= fun value =>
      match toDigit byte with
      | some digit => .ok (value <<< 4 ||| digit)
      | none => .error .badNumber := by
  simp only [hex, List.foldlM_append, List.foldlM_cons, List.foldlM_nil]
  exact bind_congr fun value => bind_pure _

theorem hex_iff {digits : List UInt8} {n : ℕ} :
    hex digits = .ok n ↔ (∀ byte ∈ digits, (toDigit byte).isSome) ∧ n = digitsValue digits := by
  -- induction from the last digit
  induction digits using List.reverseRecOn generalizing n with
  | nil =>
    simp only [hex, List.foldlM_nil, pure, Except.pure, Except.ok.injEq, List.not_mem_nil,
      false_implies, implies_true, true_and]
    exact eq_comm
  | append_singleton digits byte ih =>
    have hvalue : digitsValue (digits ++ [byte]) =
        (toDigit byte).getD 0 + 16 * digitsValue digits := by
      simp [digitsValue, Nat.ofDigits_cons]
    rw [hex_append, hvalue]
    cases hdigit : toDigit byte with
    | none =>
      cases hex digits <;> simp [bind, Except.bind, hdigit]
    | some digit =>
      have hor : ∀ value, value <<< 4 ||| digit = digit + 16 * value := by
        intro value
        rw [← Nat.shiftLeft_add_eq_or_of_lt (toDigit_lt hdigit), Nat.shiftLeft_eq]
        omega
      cases hhex : hex digits with
      | error e =>
        simp only [hhex, reduceCtorEq, false_iff, not_and] at ih
        simp only [bind, Except.bind, reduceCtorEq, false_iff, not_and]
        intro hall _
        refine ih (fun b hb => hall b (List.mem_append_left _ hb)) rfl
      | ok value =>
        obtain ⟨hall, rfl⟩ := ih.mp hhex
        simp only [bind, Except.bind, hor, Except.ok.injEq, Option.getD_some]
        constructor
        · rintro rfl
          refine ⟨fun b hb => ?_, rfl⟩
          obtain hb | hb := List.mem_append.mp hb
          · exact hall b hb
          · rw [List.mem_singleton.mp hb, hdigit]
            rfl
        · exact fun h => h.2.symm

/-- A list is its pieces of one width. -/
theorem flatten_pieces {α : Type*} (l : List α) (width count : ℕ) :
    ((List.range count).map fun index => (l.drop (index * width)).take width).flatten =
      l.take (count * width) := by
  induction count with
  | zero => simp
  | succ count ih =>
    rw [List.range_succ, List.map_append, List.flatten_append, ih, List.map_singleton,
      List.flatten_singleton, Nat.succ_mul, List.take_add]

/-- A piece of the fields that stand behind each other. -/
theorem take_drop_fields {fields : List Field} {index : ℕ} (h : index < fields.length) :
    ((fields.flatMap Field.digits).drop (index * 8)).take 8 = fields[index].digits := by
  rw [drop_flatMap Field.length_eq, List.drop_eq_getElem_cons h, List.flatMap_cons,
    List.take_left' fields[index].length_eq]

theorem mapM_eq_ok {α β ε : Type*} {f : α → Except ε β} {l : List α} {values : List β}
    (h : l.mapM f = .ok values) (a : α) (ha : a ∈ l) : ∃ b, f a = .ok b := by
  induction l generalizing values with
  | nil => contradiction
  | cons x l ih =>
    rw [List.mapM_cons] at h
    cases hx : f x with
    | error e =>
      rw [hx] at h
      contradiction
    | ok b =>
      rw [hx] at h
      obtain rfl | ha := List.mem_cons.mp ha
      · exact ⟨b, hx⟩
      · cases hl : l.mapM f with
        | error e =>
          rw [hl] at h
          contradiction
        | ok rest => exact ih hl ha

/-- A header's fields are read exactly if there are thirteen of them. -/
theorem headerFields_iff {header : List UInt8} {values : List ℕ} (hlength : header.length = headerLen)
    (hmagic : header.take 6 = magic) :
    headerFields header = .ok values ↔ ∃ fields : List Field, fields.length = 13 ∧
      header = magic ++ fields.flatMap Field.digits ∧ values = fields.map Field.value := by
  have hpiece : ∀ index, (header.drop (6 + index * 8)).take 8 =
      ((header.drop 6).drop (index * 8)).take 8 := by
    intro index
    rw [List.drop_drop]
  constructor
  · intro h
    have hok : ∀ index < 13, ∃ n, hex ((header.drop (6 + index * 8)).take 8) = .ok n :=
      fun index hindex => mapM_eq_ok h index (List.mem_range.mpr hindex)
    -- the pieces are fields
    let piece : ℕ → List UInt8 := fun index => ((header.drop 6).drop (index * 8)).take 8
    have hfield : ∀ index < 13, (piece index).length = 8 ∧
        ∀ byte ∈ piece index, (toDigit byte).isSome := by
      intro index hindex
      obtain ⟨n, hn⟩ := hok index hindex
      rw [hpiece] at hn
      refine ⟨?_, (hex_iff.mp hn).1⟩
      simp only [piece, List.length_take, List.length_drop, hlength, headerLen]
      omega
    let fields : List Field := (List.finRange 13).map fun index : Fin 13 =>
      ⟨piece index, (hfield index index.isLt).1, (hfield index index.isLt).2⟩
    have hfields : fields.map Field.digits = (List.range 13).map piece := by
      rw [List.map_map, ← List.map_coe_finRange_eq_range, List.map_map]
      rfl
    refine ⟨fields, by simp [fields], ?_, ?_⟩
    · have hrest : (header.drop 6).take (13 * 8) = header.drop 6 :=
        List.take_of_length_le (by simp [hlength, headerLen])
      rw [List.flatMap_def, hfields, flatten_pieces, hrest, ← hmagic, List.take_append_drop]
    · have hvalues : headerFields header = .ok ((List.range 13).map fun index =>
          digitsValue (piece index)) := by
        refine mapM_ok fun index hindex => ?_
        rw [hpiece]
        exact hex_iff.mpr ⟨(hfield index (List.mem_range.mp hindex)).2, rfl⟩
      rw [h, Except.ok.injEq] at hvalues
      have hvalue : fields.map Field.value = (fields.map Field.digits).map digitsValue :=
        List.map_map.symm
      rw [hvalues, hvalue, hfields, List.map_map]
      rfl
  · rintro ⟨fields, hcount, rfl, rfl⟩
    have hget : ∀ index ∈ List.range 13,
        hex (((magic ++ fields.flatMap Field.digits).drop (6 + index * 8)).take 8) =
          .ok ((fields.map Field.value).getD index 0) := by
      intro index hindex
      have hlt : index < fields.length := hcount ▸ List.mem_range.mp hindex
      have hdrop : (magic ++ fields.flatMap Field.digits).drop 6 = fields.flatMap Field.digits :=
        List.drop_left' rfl
      rw [hpiece, hdrop, take_drop_fields hlt, List.getD_eq_getElem _ _ (by simpa using hlt),
        List.getElem_map]
      exact hex_iff.mpr ⟨fields[index].isHex, rfl⟩
    rw [headerFields, mapM_ok hget, ← hcount]
    congr 1
    refine List.ext_getElem (by simp) fun i _ h => ?_
    rw [List.getElem_map, List.getElem_range, List.getD_eq_getElem _ _ h]

/-! ## Entries -/

/-- A well-formed entry. The bytes of its paddings may be anything. -/
structure Newc where
  ino : Field
  mode : Field
  uid : Field
  gid : Field
  nlink : Field
  mtime : Field
  filesize : Field
  devmajor : Field
  devminor : Field
  rdevmajor : Field
  rdevminor : Field
  namesize : Field
  check : Field
  name : Text
  namePadding : List UInt8
  data : List UInt8
  dataPadding : List UInt8
  name_ne : name ≠ []
  zero_free : '\x00' ∉ name
  namesize_eq : namesize.value = (asBytes name ++ [0]).length
  filesize_eq : filesize.value = data.length
  namePadding_length : headerLen + namesize.value + namePadding.length =
    Layout.roundUp (headerLen + namesize.value) 4
  dataPadding_length : data.length + dataPadding.length = Layout.roundUp data.length 4

namespace Newc

variable (entry : Newc)

def fields : List Field :=
  [entry.ino, entry.mode, entry.uid, entry.gid, entry.nlink, entry.mtime, entry.filesize,
    entry.devmajor, entry.devminor, entry.rdevmajor, entry.rdevminor, entry.namesize, entry.check]

def header : List UInt8 :=
  magic ++ entry.fields.flatMap Field.digits

def bytes : List UInt8 :=
  entry.header ++ (asBytes entry.name ++ [0]) ++ entry.namePadding ++ (entry.data ++ entry.dataPadding)

/-- The mode, as the kernel's 32 bits. -/
def modeBits : UInt32 :=
  UInt32.ofNat entry.mode.value

theorem length_header : entry.header.length = headerLen := by
  simp [header, fields, Field.length_eq, headerLen, magic]

theorem length_bytes : entry.bytes.length =
    Layout.roundUp (headerLen + entry.namesize.value) 4 + Layout.roundUp entry.data.length 4 := by
  have hname := entry.namePadding_length
  have hdata := entry.dataPadding_length
  have hsize := entry.namesize_eq
  simp only [bytes, List.length_append, length_header] at hsize ⊢
  omega

end Newc

/-! ## Reading an entry -/

/-- A slice behind a part that has been read. -/
theorem slice_append (before rest : List UInt8) (start length : ℕ) :
    slice (before ++ rest) (before.length + start) length =
      if start + length ≤ rest.length then .ok ((rest.drop start).take length)
      else .error .truncated := by
  have hdrop : (before ++ rest).drop (before.length + start) = rest.drop start := by
    rw [List.drop_append, List.drop_eq_nil_of_le (Nat.le_add_right _ _), List.nil_append,
      Nat.add_sub_cancel_left]
  rw [slice, hdrop, List.length_append, Nat.add_assoc]
  simp only [Nat.add_le_add_iff_left]

theorem memberName_iff {field : List UInt8} {name : Text} :
    memberName field = .ok name ↔ field = asBytes name ++ [0] ∧ name ≠ [] ∧ '\x00' ∉ name := by
  constructor
  · intro h
    unfold memberName at h
    simp only [bind, Except.bind, pure, Except.pure, throw, throwThe, MonadExceptOf.throw] at h
    split_ifs at h with hlast hbad
    · split at h
      · rename_i text htext
        obtain rfl := Except.ok.inj h
        have hbytes := eq_asBytes_of_fromUtf8 htext
        rw [hbytes, zero_mem_asBytes, List.isEmpty_iff, asBytes_eq_nil, not_or] at hbad
        refine ⟨?_, hbad.1, hbad.2⟩
        rw [← hbytes]
        exact (List.dropLast_append_getLast? 0 hlast).symm
      · contradiction
  · rintro ⟨rfl, hne, hzero⟩
    rw [memberName_eq hne, if_neg hzero]

/-- A slice that succeeds cuts the rest in three. -/
theorem slice_append_ok {before rest bytes : List UInt8} {start length : ℕ}
    (h : slice (before ++ rest) (before.length + start) length = .ok bytes) :
    bytes.length = length ∧ start + length ≤ rest.length ∧
      rest = rest.take start ++ bytes ++ rest.drop (start + length) := by
  rw [slice_append] at h
  split at h
  · rename_i hle
    obtain rfl := Except.ok.inj h
    refine ⟨?_, hle, ?_⟩
    · rw [List.length_take, List.length_drop]
      omega
    · rw [List.append_assoc, ← List.drop_drop, List.take_append_drop, List.take_append_drop]
  · contradiction

/-- What the parser takes out of a well-formed entry. -/
def Newc.member (entry : Newc) (offset : ℕ) : Member :=
  ⟨entry.name, entry.modeBits, entry.data, offset + entry.bytes.length⟩

theorem drop_append_add (before rest : List UInt8) (start : ℕ) :
    (before ++ rest).drop (before.length + start) = rest.drop start := by
  rw [List.drop_append, List.drop_eq_nil_of_le (Nat.le_add_right _ _), List.nil_append,
    Nat.add_sub_cancel_left]

theorem slice_middle (before a bytes b : List UInt8) :
    slice (before ++ (a ++ bytes ++ b)) (before.length + a.length) bytes.length = .ok bytes := by
  rw [slice_append, if_pos (by simp), List.append_assoc, List.drop_left, List.take_left]

/-- The first half of the loop, step by step. -/
theorem readMember_eq_ok {archive : List UInt8} {offset : ℕ} {m : Member} :
    readMember archive offset = .ok m ↔ ∃ header values field name padded,
      slice archive offset headerLen = .ok header ∧ header.take 6 = magic ∧
      headerFields header = .ok values ∧
      slice archive (offset + headerLen) (values.getD 11 0) = .ok field ∧
      memberName field = .ok name ∧
      slice archive (offset + Layout.roundUp (headerLen + values.getD 11 0) 4)
        (Layout.roundUp (values.getD 6 0) 4) = .ok padded ∧
      m = ⟨name, UInt32.ofNat (values.getD 1 0),
        (archive.drop (offset + Layout.roundUp (headerLen + values.getD 11 0) 4)).take
          (values.getD 6 0),
        offset + Layout.roundUp (headerLen + values.getD 11 0) 4 +
          Layout.roundUp (values.getD 6 0) 4⟩ := by
  have hbind : ∀ {α β : Type} {x : Except CpioError α} {f : α → Except CpioError β} {b : β},
      x >>= f = .ok b ↔ ∃ a, x = .ok a ∧ f a = .ok b := by
    intro α β x f b
    cases x <;> simp [bind, Except.bind]
  unfold readMember
  constructor
  · intro h
    obtain ⟨header, hheader, h⟩ := hbind.mp h
    split at h
    · contradiction
    · rename_i hmagic
      obtain ⟨values, hvalues, h⟩ := hbind.mp h
      obtain ⟨field, hfield, h⟩ := hbind.mp h
      obtain ⟨name, hname, h⟩ := hbind.mp h
      obtain ⟨padded, hpadded, h⟩ := hbind.mp h
      exact ⟨header, values, field, name, padded, hheader, not_not.mp hmagic, hvalues, hfield, hname,
        hpadded, (Except.ok.inj h).symm⟩
  · rintro ⟨header, values, field, name, padded, hheader, hmagic, hvalues, hfield, hname, hpadded, rfl⟩
    refine hbind.mpr ⟨header, hheader, ?_⟩
    rw [if_neg (not_not.mpr hmagic)]
    exact hbind.mpr ⟨values, hvalues, hbind.mpr ⟨field, hfield, hbind.mpr ⟨name, hname,
      hbind.mpr ⟨padded, hpadded, rfl⟩⟩⟩⟩

/-- A header's fields by their names. -/
theorem newc_fields {fields : List Field} (h : fields.length = 13) :
    ∃ ino mode uid gid nlink mtime filesize devmajor devminor rdevmajor rdevminor namesize check,
      fields = [ino, mode, uid, gid, nlink, mtime, filesize, devmajor, devminor, rdevmajor, rdevminor,
        namesize, check] := by
  match fields, h with
  | [ino, mode, uid, gid, nlink, mtime, filesize, devmajor, devminor, rdevmajor, rdevminor, namesize,
      check], _ =>
    exact ⟨ino, mode, uid, gid, nlink, mtime, filesize, devmajor, devminor, rdevmajor, rdevminor,
      namesize, check, rfl⟩

theorem readMember_iff {before rest : List UInt8} {m : Member} :
    readMember (before ++ rest) before.length = .ok m ↔ ∃ (entry : Newc) (rest' : List UInt8),
      rest = entry.bytes ++ rest' ∧ m = entry.member before.length := by
  rw [readMember_eq_ok]
  constructor
  · rintro ⟨header, values, field, name, padded, hheader, hmagic, hvalues, hfield, hname, hpadded, rfl⟩
    have hstart : slice (before ++ rest) (before.length + 0) headerLen = .ok header := hheader
    obtain ⟨hheaderLength, -, hcut⟩ := slice_append_ok hstart
    obtain ⟨fields, hcount, rfl, rfl⟩ := (headerFields_iff hheaderLength hmagic).mp hvalues
    obtain ⟨ino, mode, uid, gid, nlink, mtime, filesize, devmajor, devminor, rdevmajor, rdevminor,
      namesize, check, rfl⟩ := newc_fields hcount
    obtain ⟨rfl, hne, hzero⟩ := memberName_iff.mp hname
    simp only [List.map_cons, List.getD_cons_succ, List.getD_cons_zero] at hfield hpadded ⊢
    obtain ⟨hfieldLength, -, hcutField⟩ := slice_append_ok hfield
    obtain ⟨hpaddedLength, hpaddedLe, hcutPadded⟩ := slice_append_ok hpadded
    have hround : headerLen + namesize.value ≤ Layout.roundUp (headerLen + namesize.value) 4 :=
      Layout.le_roundUp (by decide)
    have hsize : filesize.value ≤ Layout.roundUp filesize.value 4 := Layout.le_roundUp (by decide)
    generalize hstop : Layout.roundUp (headerLen + namesize.value) 4 = stop at *
    -- the rest is the header, the name with its padding, the data with its padding, and more
    have hhead : rest.take headerLen = magic ++ [ino, mode, uid, gid, nlink, mtime, filesize, devmajor,
        devminor, rdevmajor, rdevminor, namesize, check].flatMap Field.digits := by
      rw [hcut, List.take_zero, List.nil_append, List.take_left' hheaderLength]
    rw [hhead] at hcutField
    have hnamed : rest.take stop = magic ++ [ino, mode, uid, gid, nlink, mtime, filesize, devmajor,
        devminor, rdevmajor, rdevminor, namesize, check].flatMap Field.digits ++ (asBytes name ++ [0]) ++
          (rest.drop (headerLen + namesize.value)).take (stop - (headerLen + namesize.value)) := by
      conv_lhs => rw [hcutField]
      have hlength := congrArg₂ (· + ·) hheaderLength hfieldLength
      rw [← List.length_append] at hlength
      rw [List.take_append, hlength, List.take_of_length_le (hlength.trans_le hround)]
    have hdrop : rest.drop stop = padded ++ rest.drop (stop + Layout.roundUp filesize.value 4) := by
      conv_lhs => rw [hcutPadded]
      rw [List.append_assoc, List.drop_left' (by rw [List.length_take]; omega)]
    have hstopLe : stop ≤ rest.length := by omega
    let entry : Newc := {
      ino, mode, uid, gid, nlink, mtime, filesize, devmajor, devminor, rdevmajor, rdevminor, namesize
      check
      name
      namePadding := (rest.drop (headerLen + namesize.value)).take (stop - (headerLen + namesize.value))
      data := padded.take filesize.value
      dataPadding := padded.drop filesize.value
      name_ne := hne
      zero_free := hzero
      namesize_eq := hfieldLength.symm
      filesize_eq := by rw [List.length_take]; omega
      namePadding_length := by
        rw [List.length_take, List.length_drop, hstop]
        omega
      dataPadding_length := by
        rw [← List.length_append, List.take_append_drop, hpaddedLength, List.length_take,
          Nat.min_eq_left (hsize.trans_eq hpaddedLength.symm)] }
    have hbytes : rest = entry.bytes ++ rest.drop (stop + Layout.roundUp filesize.value 4) := by
      conv_lhs => rw [← List.take_append_drop stop rest, hnamed, hdrop]
      simp only [Newc.bytes, Newc.header, Newc.fields, entry, List.take_append_drop, List.append_assoc]
    refine ⟨entry, _, hbytes, ?_⟩
    have hdata : ((before ++ rest).drop (before.length + stop)).take filesize.value =
        padded.take filesize.value := by
      rw [drop_append_add, hdrop, List.take_append_of_le_length (hsize.trans_eq hpaddedLength.symm)]
    have hlength : entry.bytes.length = stop + Layout.roundUp filesize.value 4 := by
      rw [entry.length_bytes, ← entry.filesize_eq]
      exact congrArg (· + _) hstop
    rw [hdata, Newc.member, hlength, Nat.add_assoc]
    rfl
  · rintro ⟨entry, rest', rfl, rfl⟩
    have hname := entry.namesize_eq
    have hpadding := entry.namePadding_length
    have hdataPadding := entry.dataPadding_length
    have hslice : ∀ a {bytes b start length}, entry.bytes ++ rest' = a ++ bytes ++ b →
        a.length = start → bytes.length = length →
        slice (before ++ (entry.bytes ++ rest')) (before.length + start) length = .ok bytes := by
      rintro a bytes b _ _ hcut rfl rfl
      rw [hcut, slice_middle]
    have hfront : (entry.header ++ (asBytes entry.name ++ [0]) ++ entry.namePadding).length =
        Layout.roundUp (headerLen + entry.namesize.value) 4 := by
      rw [List.length_append, List.length_append, entry.length_header, ← hname, hpadding]
    have hback : (entry.data ++ entry.dataPadding).length = Layout.roundUp entry.filesize.value 4 := by
      rw [List.length_append, hdataPadding, entry.filesize_eq]
    refine ⟨entry.header, entry.fields.map Field.value, asBytes entry.name ++ [0], entry.name,
      entry.data ++ entry.dataPadding, ?_, List.take_left' rfl, ?_, ?_,
      memberName_iff.mpr ⟨rfl, entry.name_ne, entry.zero_free⟩, ?_, ?_⟩
    · have hcut : entry.bytes ++ rest' = [] ++ entry.header ++ ((asBytes entry.name ++ [0]) ++
          (entry.namePadding ++ (entry.data ++ entry.dataPadding ++ rest'))) := by
        simp only [Newc.bytes, List.nil_append, List.append_assoc]
      exact hslice [] hcut rfl entry.length_header
    · exact (headerFields_iff entry.length_header (List.take_left' rfl)).mpr ⟨entry.fields, rfl, rfl, rfl⟩
    · have hcut : entry.bytes ++ rest' = entry.header ++ (asBytes entry.name ++ [0]) ++
          (entry.namePadding ++ (entry.data ++ entry.dataPadding ++ rest')) := by
        simp only [Newc.bytes, List.append_assoc]
      exact hslice entry.header hcut entry.length_header hname.symm
    · have hcut : entry.bytes ++ rest' = entry.header ++ (asBytes entry.name ++ [0]) ++
          entry.namePadding ++ (entry.data ++ entry.dataPadding) ++ rest' := by
        rw [Newc.bytes]
      exact hslice _ hcut hfront hback
    · have hdata : ((before ++ (entry.bytes ++ rest')).drop (before.length +
          Layout.roundUp (headerLen + entry.namesize.value) 4)).take entry.filesize.value =
            entry.data := by
        rw [drop_append_add, Newc.bytes, List.append_assoc, List.drop_left' hfront, List.append_assoc,
          List.take_left' entry.filesize_eq.symm]
      rw [Newc.member, entry.length_bytes, ← entry.filesize_eq, ← Nat.add_assoc]
      exact congrArg (Member.mk _ _ · _) hdata.symm

/-- The bytes of an entry say where it ends, and what is in it. -/
theorem Newc.bytes_unique {entry entry' : Newc} {rest rest' : List UInt8}
    (h : entry.bytes ++ rest = entry'.bytes ++ rest') :
    entry.member 0 = entry'.member 0 ∧ entry.bytes = entry'.bytes ∧ rest = rest' := by
  have hread : readMember ([] ++ (entry.bytes ++ rest)) ([] : List UInt8).length =
    .ok (entry.member 0) := readMember_iff.mpr ⟨entry, rest, rfl, rfl⟩
  have hread' : readMember ([] ++ (entry.bytes ++ rest)) ([] : List UInt8).length =
    .ok (entry'.member 0) := readMember_iff.mpr ⟨entry', rest', h, rfl⟩
  have hmember := Except.ok.inj (hread.symm.trans hread')
  have hlength : 0 + entry.bytes.length = 0 + entry'.bytes.length := congrArg Member.next hmember
  rw [Nat.zero_add, Nat.zero_add] at hlength
  exact ⟨hmember, List.append_inj h hlength⟩

/-! ## Members -/

/-- The components of a name that a path keeps. -/
def cleaned (name : Text) : Text :=
  ['/'].intercalate ((name.splitOn '/').filter fun component => component ≠ [] ∧ component ≠ ['.'])

/-- No component leads upwards. -/
def NoParent (name : Text) : Prop :=
  ['.', '.'] ∉ name.splitOn '/'

/-- Components that are kept, joined behind a path. -/
def joined (path : Text) : List Text → Text
  | [] => path
  | component :: components =>
    joined (if path ≠ [] then path ++ ['/'] ++ component else path ++ component) components

theorem joined_of_ne {path : Text} (hpath : path ≠ []) (components : List Text) :
    joined path components = path ++ components.flatMap (['/'] ++ ·) := by
  induction components generalizing path with
  | nil => simp [joined]
  | cons component components ih =>
    rw [joined, if_pos hpath, ih (by simp), List.flatMap_cons]
    simp only [List.append_assoc]

theorem joined_nil {components : List Text} (h : ∀ component ∈ components, component ≠ []) :
    joined [] components = ['/'].intercalate components := by
  cases components with
  | nil => rfl
  | cons component components =>
    rw [joined, if_neg (not_not.mpr rfl), List.nil_append,
      joined_of_ne (h component List.mem_cons_self), intercalate_cons_eq]

theorem foldlM_cleanPath_iff {components : List Text} {path path' : Text} :
    components.foldlM (fun path component =>
      if component = [] ∨ component = ['.'] then Except.ok path
      else if component = ['.', '.'] then .error CpioError.badPath
      else if path ≠ [] then .ok (path ++ ['/'] ++ component)
      else .ok (path ++ component)) path = .ok path' ↔
        ['.', '.'] ∉ components ∧
          path' = joined path (components.filter fun c => c ≠ [] ∧ c ≠ ['.']) := by
  induction components generalizing path with
  | nil => simp [pure, Except.pure, joined, eq_comm]
  | cons component components ih =>
    rw [List.foldlM_cons, List.mem_cons, not_or]
    by_cases hskip : component = [] ∨ component = ['.']
    · have hne : ['.', '.'] ≠ component := by
        rintro rfl
        simp at hskip
      rw [if_pos hskip, List.filter_cons_of_neg (by simpa [or_iff_not_imp_left] using hskip)]
      exact ih.trans ⟨fun h => ⟨⟨hne, h.1⟩, h.2⟩, fun h => ⟨h.1.2, h.2⟩⟩
    · by_cases hdots : component = ['.', '.']
      · rw [if_neg hskip, if_pos hdots]
        simp [bind, Except.bind, hdots]
      · rw [not_or] at hskip
        rw [if_neg (not_or.mpr hskip), if_neg hdots, List.filter_cons_of_pos (by simpa using hskip),
          joined]
        have hne : ['.', '.'] ≠ component := fun heq => hdots heq.symm
        split
        · exact ih.trans ⟨fun h => ⟨⟨hne, h.1⟩, h.2⟩, fun h => ⟨h.1.2, h.2⟩⟩
        · exact ih.trans ⟨fun h => ⟨⟨hne, h.1⟩, h.2⟩, fun h => ⟨h.1.2, h.2⟩⟩

theorem cleanPath_iff {name path : Text} :
    cleanPath name = .ok path ↔ NoParent name ∧ path = cleaned name := by
  have hjoined : joined [] ((name.splitOn '/').filter fun c => c ≠ [] ∧ c ≠ ['.']) = cleaned name :=
    joined_nil fun component hmem => (of_decide_eq_true (List.mem_filter.mp hmem).2).1
  rw [cleanPath, foldlM_cleanPath_iff, hjoined, NoParent]

namespace Newc

variable (entry : Newc)

def IsRegular : Prop :=
  entry.modeBits &&& sIfmt = sIfreg

def IsDirectory : Prop :=
  entry.modeBits &&& sIfmt = sIfdir

/-- An entry that may stand in an archive before its trailer. -/
structure IsMember : Prop where
  not_trailer : entry.name ≠ trailer
  noParent : NoParent entry.name
  kind : entry.IsRegular ∧ cleaned entry.name ≠ [] ∨ entry.IsDirectory ∧ entry.data = []

instance : Decidable entry.IsRegular :=
  inferInstanceAs (Decidable (_ = _))

/-- What a member stands for; the root needs no entry. -/
def entries : List Entry :=
  if entry.IsRegular then [⟨cleaned entry.name, .file, entry.data⟩]
  else if cleaned entry.name = [] then []
  else [⟨cleaned entry.name, .directory, []⟩]

variable {entry} {entry' : Newc}

/-- Only what the parser takes out of an entry decides what it stands for. -/
theorem isMember_congr (h : entry.member 0 = entry'.member 0) :
    entry.IsMember ↔ entry'.IsMember := by
  have hname : entry.name = entry'.name := congrArg Member.name h
  have hmode : entry.modeBits = entry'.modeBits := congrArg Member.mode h
  have hdata : entry.data = entry'.data := congrArg Member.data h
  have hkind : (entry.IsRegular ∧ cleaned entry.name ≠ [] ∨ entry.IsDirectory ∧ entry.data = []) ↔
      (entry'.IsRegular ∧ cleaned entry'.name ≠ [] ∨ entry'.IsDirectory ∧ entry'.data = []) := by
    unfold IsRegular IsDirectory
    rw [hname, hmode, hdata]
  exact ⟨fun hm => ⟨hname ▸ hm.not_trailer, hname ▸ hm.noParent, hkind.mp hm.kind⟩,
    fun hm => ⟨hname ▸ hm.not_trailer, hname ▸ hm.noParent, hkind.mpr hm.kind⟩⟩

theorem entries_congr (h : entry.member 0 = entry'.member 0) : entry.entries = entry'.entries := by
  have hname : entry.name = entry'.name := congrArg Member.name h
  have hmode : entry.modeBits = entry'.modeBits := congrArg Member.mode h
  have hdata : entry.data = entry'.data := congrArg Member.data h
  have hregular : entry.IsRegular ↔ entry'.IsRegular := by
    unfold IsRegular
    rw [hmode]
  simp only [entries, hregular, hname, hdata]

end Newc

theorem sIfdir_ne_sIfreg : sIfdir ≠ sIfreg := by
  decide

/-- The second half of the loop, for a member. -/
theorem entryKind_iff {entry : Newc} {kind : Option EntryKind} :
    entryKind entry.modeBits (cleaned entry.name) entry.data.length = .ok kind ↔
      (entry.IsRegular ∧ cleaned entry.name ≠ [] ∨ entry.IsDirectory ∧ entry.data = []) ∧
        (kind.map fun kind => (⟨cleaned entry.name, kind, entry.data⟩ : Entry)).toList =
          entry.entries := by
  unfold entryKind Newc.entries Newc.IsRegular Newc.IsDirectory
  by_cases hregular : entry.modeBits &&& sIfmt = sIfreg
  · have hdirectory : ¬ (entry.modeBits &&& sIfmt = sIfdir) := fun h =>
      sIfdir_ne_sIfreg (h.symm.trans hregular)
    by_cases hpath : cleaned entry.name = []
    · simp [hregular, hpath, sIfdir_ne_sIfreg.symm]
    · cases kind <;> simp [hregular, hpath, eq_comm]
  · by_cases hdirectory : entry.modeBits &&& sIfmt = sIfdir
    · by_cases hdata : entry.data = []
      · by_cases hpath : cleaned entry.name = []
        · cases kind <;> simp [hdirectory, sIfdir_ne_sIfreg, hdata, hpath]
        · cases kind <;> simp [hdirectory, sIfdir_ne_sIfreg, hdata, hpath, eq_comm]
      · simp [hdirectory, sIfdir_ne_sIfreg, hdata]
    · simp [hregular, hdirectory]

theorem exists_entryKind {entry : Newc}
    (h : entry.IsRegular ∧ cleaned entry.name ≠ [] ∨ entry.IsDirectory ∧ entry.data = []) :
    ∃ kind, entryKind entry.modeBits (cleaned entry.name) entry.data.length = .ok kind := by
  unfold entryKind Newc.IsRegular Newc.IsDirectory at *
  obtain ⟨hregular, hpath⟩ | ⟨hdirectory, hdata⟩ := h
  · exact ⟨some .file, by rw [if_pos hregular, if_pos hpath]⟩
  · by_cases hpath : cleaned entry.name = []
    · exact ⟨none, by simp [hdirectory, sIfdir_ne_sIfreg, hdata, hpath]⟩
    · exact ⟨some .directory, by simp [hdirectory, sIfdir_ne_sIfreg, hdata, hpath]⟩

/-! ## Archives -/

/-- Members, the trailer, and any number of zeros. -/
structure Archive where
  members : List Newc
  isMember : ∀ entry ∈ members, entry.IsMember
  last : Newc
  isTrailer : last.name = trailer
  zeros : ℕ

namespace Archive

variable (archive : Archive)

/-- The bytes up to the zeros. -/
def body : List UInt8 :=
  archive.members.flatMap Newc.bytes ++ archive.last.bytes

def bytes : List UInt8 :=
  archive.body ++ List.replicate archive.zeros 0

def entries : List Entry :=
  archive.members.flatMap Newc.entries

end Archive

/-- What is left to read, and the entries that are still to come. -/
inductive Tail : List UInt8 → List Entry → Prop
  | member {entry : Newc} {rest : List UInt8} {entries : List Entry} (h : entry.IsMember)
    (tail : Tail rest entries) : Tail (entry.bytes ++ rest) (entry.entries ++ entries)
  | stop {entry : Newc} (h : entry.name = trailer) (zeros : ℕ) :
    Tail (entry.bytes ++ List.replicate zeros 0) []
  | next {entry : Newc} {rest : List UInt8} {entries : List Entry} (h : entry.name = trailer)
    (zeros : ℕ) (tail : Tail rest entries) :
    Tail (entry.bytes ++ (List.replicate zeros 0 ++ rest)) entries

theorem Tail.of_members {rest : List UInt8} {entries : List Entry} (tail : Tail rest entries)
    {members : List Newc} (h : ∀ entry ∈ members, entry.IsMember) :
    Tail (members.flatMap Newc.bytes ++ rest) (members.flatMap Newc.entries ++ entries) := by
  induction members with
  | nil => exact tail
  | cons entry members ih =>
    rw [List.flatMap_cons, List.flatMap_cons, List.append_assoc, List.append_assoc]
    exact .member (h entry List.mem_cons_self) (ih fun e he => h e (List.mem_cons_of_mem entry he))

/-- What the loop reads is a non-empty concatenation of archives. -/
theorem tail_iff {bytes : List UInt8} {entries : List Entry} :
    Tail bytes entries ↔ ∃ archives : List Archive, archives ≠ [] ∧
      bytes = archives.flatMap Archive.bytes ∧ entries = archives.flatMap Archive.entries := by
  constructor
  · intro tail
    induction tail with
    | @member entry rest entries h tail ih =>
      obtain ⟨archives, hne, rfl, rfl⟩ := ih
      cases archives with
      | nil => exact absurd rfl hne
      | cons archive archives =>
        -- the member joins the first archive
        refine ⟨⟨entry :: archive.members, ?_, archive.last, archive.isTrailer, archive.zeros⟩ ::
          archives, (by simp), ?_, ?_⟩
        · rintro e (_ | ⟨_, he⟩)
          · exact h
          · exact archive.isMember e he
        · simp [Archive.bytes, Archive.body]
        · simp [Archive.entries]
    | @stop entry h zeros =>
      exact ⟨[⟨[], (by simp), entry, h, zeros⟩], (by simp), by simp [Archive.bytes, Archive.body],
        by simp [Archive.entries]⟩
    | @next entry rest entries h zeros tail ih =>
      obtain ⟨archives, -, rfl, rfl⟩ := ih
      exact ⟨⟨[], (by simp), entry, h, zeros⟩ :: archives, (by simp), by simp [Archive.bytes, Archive.body],
        by simp [Archive.entries]⟩
  · rintro ⟨archives, hne, rfl, rfl⟩
    induction archives with
    | nil => exact absurd rfl hne
    | cons archive archives ih =>
      rw [List.flatMap_cons, List.flatMap_cons, Archive.bytes, Archive.body, Archive.entries,
        List.append_assoc, List.append_assoc]
      cases archives with
      | nil =>
        rw [List.flatMap_nil, List.flatMap_nil, List.append_nil]
        exact (Tail.stop archive.isTrailer archive.zeros).of_members archive.isMember
      | cons next archives =>
        exact (Tail.next archive.isTrailer archive.zeros (ih (by simp))).of_members archive.isMember

/-! ## The loop -/

/-- Every tail starts with an entry, and so not with a zero. -/
theorem Tail.dropWhile_zeros {rest : List UInt8} {entries : List Entry} (tail : Tail rest entries)
    (zeros : ℕ) : (List.replicate zeros 0 ++ rest).dropWhile (· == 0) = rest := by
  have hstart : ∃ bytes, rest = 0x30 :: bytes := by
    cases tail <;> exact ⟨_, rfl⟩
  obtain ⟨bytes, rfl⟩ := hstart
  induction zeros with
  | zero => rfl
  | succ zeros ih => rw [List.replicate_succ, List.cons_append, List.dropWhile_cons_of_pos rfl, ih]

theorem eq_zeros_append (rest : List UInt8) :
    rest = List.replicate (rest.takeWhile (· == 0)).length 0 ++ rest.dropWhile (· == 0) := by
  have hzeros : rest.takeWhile (· == 0) = List.replicate (rest.takeWhile (· == 0)).length 0 :=
    List.eq_replicate_of_mem fun byte hbyte => by simpa using List.mem_takeWhile_imp hbyte
  rw [← hzeros, List.takeWhile_append_dropWhile]

/-- What may stand behind an entry. -/
theorem tail_append_iff {entry : Newc} {rest : List UInt8} {out : List Entry} :
    Tail (entry.bytes ++ rest) out ↔
      (entry.name = trailer ∧ (rest.dropWhile (· == 0) = [] ∧ out = [] ∨
        Tail (rest.dropWhile (· == 0)) out)) ∨
      (entry.IsMember ∧ ∃ out', Tail rest out' ∧ out = entry.entries ++ out') := by
  constructor
  · intro tail
    generalize hbytes : entry.bytes ++ rest = bytes at tail
    cases tail with
    | member h tail =>
      obtain ⟨hmember, -, rfl⟩ := Newc.bytes_unique hbytes
      exact .inr ⟨(Newc.isMember_congr hmember).mpr h, _, tail, by rw [Newc.entries_congr hmember]⟩
    | stop h zeros =>
      obtain ⟨hmember, -, rfl⟩ := Newc.bytes_unique hbytes
      have hname : entry.name = trailer := (congrArg Member.name hmember).trans h
      exact .inl ⟨hname, .inl ⟨by simp, rfl⟩⟩
    | next h zeros tail =>
      obtain ⟨hmember, -, rfl⟩ := Newc.bytes_unique hbytes
      have hname : entry.name = trailer := (congrArg Member.name hmember).trans h
      exact .inl ⟨hname, .inr (by rwa [tail.dropWhile_zeros])⟩
  · rintro (⟨hname, ⟨hnil, rfl⟩ | tail⟩ | ⟨h, out', tail, rfl⟩)
    · rw [eq_zeros_append rest, hnil, List.append_nil]
      exact .stop hname _
    · rw [eq_zeros_append rest]
      exact .next hname _ tail
    · exact .member h tail

theorem skipZeros_append (before rest : List UInt8) :
    skipZeros (before ++ rest) before.length =
      before.length + (rest.takeWhile (· == 0)).length := by
  rw [skipZeros, List.drop_left]

section Round

variable {archive : List UInt8} {offset fuel : ℕ} {acc : List Entry} {m : Member}

/-- A round that reads a trailer. -/
theorem round_trailer (hread : readMember archive offset = .ok m) (hname : m.name = trailer) :
    parseFrom archive (fuel + 1) offset acc =
      if skipZeros archive m.next = archive.length then .ok acc
      else parseFrom archive fuel (skipZeros archive m.next) acc := by
  rw [parseFrom, hread]
  simp only [bind, Except.bind, hname, if_true]
  rfl

/-- A round that reads anything else. -/
theorem round_member (hread : readMember archive offset = .ok m) (hname : m.name ≠ trailer) :
    parseFrom archive (fuel + 1) offset acc = (do
      let path ← cleanPath m.name
      let kind ← entryKind m.mode path m.data.length
      parseFrom archive fuel m.next (acc ++ (kind.map fun kind => ⟨path, kind, m.data⟩).toList)) := by
  rw [parseFrom, hread]
  simp only [bind, Except.bind, hname, if_false]
  cases cleanPath m.name with
  | error e => rfl
  | ok path =>
    dsimp only
    cases entryKind m.mode path m.data.length with
    | error e => rfl
    | ok kind => cases kind <;> simp

end Round

/-- The loop accepts what is left exactly if it is a tail. Each round reads an entry, so the fuel is
enough. -/
theorem parseFrom_iff {fuel : ℕ} {before rest : List UInt8} {acc out : List Entry}
    (hfuel : rest.length < fuel) :
    parseFrom (before ++ rest) fuel before.length acc = .ok out ↔
      ∃ entries, Tail rest entries ∧ out = acc ++ entries := by
  induction fuel generalizing before rest acc with
  | zero => exact absurd hfuel (Nat.not_lt_zero _)
  | succ fuel ih =>
    cases hread : readMember (before ++ rest) before.length with
    | error e =>
      rw [parseFrom, hread]
      refine iff_of_false (fun h => (by cases h)) ?_
      rintro ⟨entries, tail, -⟩
      -- a tail starts with an entry that is read
      obtain ⟨entry, rest', rfl⟩ : ∃ (entry : Newc) (rest' : List UInt8), rest = entry.bytes ++ rest' := by
        cases tail <;> exact ⟨_, _, rfl⟩
      exact absurd (hread.symm.trans (readMember_iff.mpr ⟨entry, rest', rfl, rfl⟩)) (by simp)
    | ok m =>
      obtain ⟨entry, rest', rfl, rfl⟩ := readMember_iff.mp hread
      have hshort : rest'.length < fuel := by
        rw [List.length_append, Newc.bytes, List.length_append, List.length_append,
          List.length_append, entry.length_header, headerLen] at hfuel
        omega
      have hnext : (entry.member before.length).next = (before ++ entry.bytes).length :=
        (List.length_append).symm
      simp only [tail_append_iff]
      by_cases hname : entry.name = trailer
      · have hnot : ¬ entry.IsMember := fun h => h.not_trailer hname
        have hskip : skipZeros (before ++ (entry.bytes ++ rest')) (entry.member before.length).next =
            (before ++ entry.bytes ++ rest'.takeWhile (· == 0)).length := by
          rw [hnext, ← List.append_assoc, skipZeros_append, ← List.length_append]
        have hcut : before ++ (entry.bytes ++ rest') =
            before ++ entry.bytes ++ rest'.takeWhile (· == 0) ++ rest'.dropWhile (· == 0) := by
          simp only [List.append_assoc, List.takeWhile_append_dropWhile]
        have hrest : (rest'.dropWhile (· == 0)).length < fuel :=
          (List.dropWhile_suffix _).length_le.trans_lt hshort
        rw [round_trailer hread hname, hskip, hcut]
        simp only [hname, hnot, false_and, or_false, true_and]
        by_cases hend : rest'.dropWhile (· == 0) = []
        · -- nothing but zeros is left
          have hnone : ∀ entries, ¬ Tail [] entries := by
            intro entries tail
            generalize hbytes : ([] : List UInt8) = bytes at tail
            cases tail <;> contradiction
          rw [hend, List.append_nil, if_pos rfl]
          constructor
          · intro h
            exact ⟨[], .inl ⟨rfl, rfl⟩, by rw [List.append_nil, Except.ok.inj h]⟩
          · rintro ⟨entries, ⟨-, rfl⟩ | tail, rfl⟩
            · rw [List.append_nil]
            · exact absurd tail (hnone entries)
        · have hlonger : ∀ a b : List UInt8, b ≠ [] → a.length ≠ (a ++ b).length := by
            intro a b hb
            have hpos := List.length_pos_iff.mpr hb
            rw [List.length_append]
            omega
          rw [if_neg (hlonger _ _ hend), ih hrest]
          simp only [hend, false_and, false_or]
      · rw [round_member hread hname]
        simp only [hname, false_and, false_or]
        have hcut : before ++ (entry.bytes ++ rest') = before ++ entry.bytes ++ rest' :=
          (List.append_assoc _ _ _).symm
        constructor
        · intro h
          cases hpath : cleanPath entry.name with
          | error e =>
            simp only [Newc.member, hpath] at h
            contradiction
          | ok path =>
            obtain ⟨hparent, rfl⟩ := cleanPath_iff.mp hpath
            simp only [Newc.member, hpath, bind, Except.bind] at h
            cases hkind : entryKind entry.modeBits (cleaned entry.name) entry.data.length with
            | error e =>
              rw [hkind] at h
              contradiction
            | ok kind =>
              obtain ⟨hmember, hentries⟩ := entryKind_iff.mp hkind
              rw [hkind] at h
              dsimp only at h
              rw [hentries, hcut, ← List.length_append, ih hshort] at h
              obtain ⟨entries, tail, rfl⟩ := h
              exact ⟨_, ⟨⟨hname, hparent, hmember⟩, entries, tail, rfl⟩, List.append_assoc _ _ _⟩
        · rintro ⟨entries, ⟨hmember, out', tail, rfl⟩, rfl⟩
          have hpath := cleanPath_iff.mpr ⟨hmember.noParent, rfl⟩
          obtain ⟨kind, hkind⟩ := exists_entryKind hmember.kind
          obtain ⟨-, hentries⟩ := entryKind_iff.mp hkind
          simp only [Newc.member, hpath, bind, Except.bind, hkind, hentries]
          rw [hcut, ← List.length_append, ih hshort]
          exact ⟨out', tail, (List.append_assoc _ _ _).symm⟩

/-- Fuel beyond the length of what is left makes no difference. -/
theorem parseFrom_fuel {fuel fuel' : ℕ} {before rest : List UInt8} {acc : List Entry}
    (hfuel : rest.length < fuel) (hfuel' : rest.length < fuel') :
    parseFrom (before ++ rest) fuel before.length acc =
      parseFrom (before ++ rest) fuel' before.length acc := by
  induction fuel generalizing fuel' before rest acc with
  | zero => exact absurd hfuel (Nat.not_lt_zero _)
  | succ fuel ih =>
    cases fuel' with
    | zero => exact absurd hfuel' (Nat.not_lt_zero _)
    | succ fuel' =>
      cases hread : readMember (before ++ rest) before.length with
      | error e =>
        rw [parseFrom, parseFrom, hread]
        rfl
      | ok m =>
        obtain ⟨entry, rest', rfl, rfl⟩ := readMember_iff.mp hread
        have hlength : (entry.bytes ++ rest').length = entry.bytes.length + rest'.length :=
          List.length_append
        have hpos : 0 < entry.bytes.length := List.length_pos_iff.mpr (fun h => by cases h)
        have hnext : (entry.member before.length).next = (before ++ entry.bytes).length :=
          (List.length_append).symm
        by_cases hname : entry.name = trailer
        · have hcut : before ++ (entry.bytes ++ rest') =
              before ++ entry.bytes ++ rest'.takeWhile (· == 0) ++ rest'.dropWhile (· == 0) := by
            simp only [List.append_assoc, List.takeWhile_append_dropWhile]
          have hskip : skipZeros (before ++ (entry.bytes ++ rest'))
              (entry.member before.length).next =
                (before ++ entry.bytes ++ rest'.takeWhile (· == 0)).length := by
            rw [hnext, ← List.append_assoc, skipZeros_append, ← List.length_append]
          have hrest : (rest'.dropWhile (· == 0)).length ≤ rest'.length :=
            (List.dropWhile_suffix _).length_le
          rw [round_trailer hread hname, round_trailer hread hname, hskip, hcut,
            ih (by omega) (by omega : _ < fuel')]
        · have hcut : before ++ (entry.bytes ++ rest') = before ++ entry.bytes ++ rest' :=
            (List.append_assoc _ _ _).symm
          rw [round_member hread hname, round_member hread hname]
          refine bind_congr fun path => bind_congr fun kind => ?_
          rw [hnext, hcut]
          exact ih (by omega) (by omega)

/-! ## Cut archives -/

/-- A part of an archive that is accepted has all of it but some of the zeros. -/
theorem Tail.body_isPrefix {part rest after : List UInt8} {out : List Entry} (tail : Tail part out)
    {members : List Newc} (hmembers : ∀ entry ∈ members, entry.IsMember) {last : Newc}
    (h : part ++ rest = members.flatMap Newc.bytes ++ last.bytes ++ after) :
    members.flatMap Newc.bytes ++ last.bytes <+: part := by
  induction members generalizing part out with
  | nil =>
    obtain ⟨entry, part', rfl⟩ : ∃ (entry : Newc) (part' : List UInt8), part = entry.bytes ++ part' := by
      cases tail <;> exact ⟨_, _, rfl⟩
    rw [List.append_assoc, List.flatMap_nil, List.nil_append] at h
    obtain ⟨-, hbytes, -⟩ := Newc.bytes_unique h
    rw [List.flatMap_nil, List.nil_append, ← hbytes]
    exact List.prefix_append _ _
  | cons member members ih =>
    have hmember := hmembers member List.mem_cons_self
    rw [List.flatMap_cons, List.append_assoc, List.append_assoc] at h
    -- the part starts with the same entry, so that it is a member there as well
    have hfirst : ∀ {entry : Newc} {part' : List UInt8}, entry.bytes ++ part' ++ rest =
        member.bytes ++ (members.flatMap Newc.bytes ++ (last.bytes ++ after)) →
        entry.name = member.name ∧ entry.bytes = member.bytes ∧
          part' ++ rest = members.flatMap Newc.bytes ++ last.bytes ++ after := by
      intro entry part' heq
      rw [List.append_assoc] at heq
      obtain ⟨hread, hbytes, hrest⟩ := Newc.bytes_unique heq
      exact ⟨congrArg Member.name hread, hbytes, hrest.trans (List.append_assoc _ _ _).symm⟩
    cases tail with
    | member hentry tail =>
      obtain ⟨-, hbytes, hrest⟩ := hfirst h
      rw [List.flatMap_cons, List.append_assoc, hbytes, List.prefix_append_right_inj]
      exact ih tail (fun e he => hmembers e (List.mem_cons_of_mem member he)) hrest
    | stop hname zeros => exact absurd ((hfirst h).1.symm.trans hname) hmember.not_trailer
    | next hname zeros tail => exact absurd ((hfirst h).1.symm.trans hname) hmember.not_trailer

/-- Every place that `parse` reads lies in the archive: the parts of a header, and a member's data once
its padded size has been checked. -/
def InBounds (archive : List UInt8) : Prop :=
  (∀ offset header, slice archive offset headerLen = .ok header →
    6 ≤ header.length ∧ ∀ index < 13, 14 + index * 8 ≤ header.length) ∧
  ∀ start size padded, slice archive start (Layout.roundUp size 4) = .ok padded →
    start + size ≤ archive.length

theorem slice_ok {archive bytes : List UInt8} {start length : ℕ}
    (h : slice archive start length = .ok bytes) :
    start + length ≤ archive.length ∧ bytes.length = length := by
  unfold slice at h
  split at h
  · rename_i hle
    obtain rfl := Except.ok.inj h
    refine ⟨hle, ?_⟩
    rw [List.length_take, List.length_drop]
    omega
  · contradiction

theorem inBounds (archive : List UInt8) : InBounds archive := by
  refine ⟨fun offset header h => ?_, fun start size padded h => ?_⟩
  · have hlength := (slice_ok h).2
    rw [headerLen] at hlength
    exact ⟨by omega, fun index hindex => by omega⟩
  · have hround : size ≤ Layout.roundUp size 4 := Layout.le_roundUp (by decide)
    have hle := (slice_ok h).1
    omega

theorem skipZeros_le {archive : List UInt8} {offset : ℕ} (h : offset ≤ archive.length) :
    skipZeros archive offset ≤ archive.length := by
  have hzeros := (List.takeWhile_sublist (· == 0) (l := archive.drop offset)).length_le
  rw [List.length_drop] at hzeros
  unfold skipZeros
  omega

/-- Every round of the loop that goes on moves the offset forward, and never past the end. -/
def Advances (archive : List UInt8) : Prop :=
  ∀ offset m, readMember archive offset = .ok m → offset < m.next ∧
    m.next ≤ skipZeros archive m.next ∧ skipZeros archive m.next ≤ archive.length

theorem advances (archive : List UInt8) : Advances archive := by
  intro offset m h
  obtain ⟨header, values, field, name, padded, -, -, -, -, -, hpadded, rfl⟩ := readMember_eq_ok.mp h
  have hround : headerLen + values.getD 11 0 ≤ Layout.roundUp (headerLen + values.getD 11 0) 4 :=
    Layout.le_roundUp (by decide)
  have hle := (slice_ok hpadded).1
  refine ⟨?_, Nat.le_add_right _ _, skipZeros_le hle⟩
  rw [headerLen] at hround ⊢
  dsimp only
  omega

theorem parse_iff {bytes : List UInt8} {out : List Entry} : parse bytes = .ok out ↔ Tail bytes out := by
  have h : parseFrom ([] ++ bytes) (bytes.length + 1) ([] : List UInt8).length [] = .ok out ↔
      ∃ entries, Tail bytes entries ∧ out = [] ++ entries := parseFrom_iff (Nat.lt_succ_self _)
  simp only [List.nil_append, exists_eq_right'] at h
  exact h

/-- `parse` accepts exactly the non-empty concatenations of archives, with the members' entries in order;
it ends by itself and reads only what is there; and an archive that is cut off before its last zeros is
refused. -/
theorem parse_exact (bytes : List UInt8) :
    (∀ out, parse bytes = .ok out ↔ ∃ archives : List Archive, archives ≠ [] ∧
      bytes = archives.flatMap Archive.bytes ∧ out = archives.flatMap Archive.entries) ∧
    (∀ fuel, bytes.length < fuel → parseFrom bytes fuel 0 [] = parse bytes) ∧
    Advances bytes ∧ InBounds bytes ∧
    ∀ archive : Archive, bytes <+: archive.bytes → ¬ archive.body <+: bytes →
      ∃ e, parse bytes = .error e := by
  refine ⟨fun out => parse_iff.trans tail_iff, fun fuel hfuel => ?_, advances bytes, inBounds bytes,
    ?_⟩
  · have h : parseFrom ([] ++ bytes) fuel ([] : List UInt8).length [] =
        parseFrom ([] ++ bytes) (bytes.length + 1) ([] : List UInt8).length [] :=
      parseFrom_fuel hfuel (Nat.lt_succ_self _)
    exact h
  · rintro archive ⟨rest, hrest⟩ hcut
    cases hparse : parse bytes with
    | error e => exact ⟨e, rfl⟩
    | ok out => exact absurd ((parse_iff.mp hparse).body_isPrefix archive.isMember hrest) hcut

end SaeOS.Initramfs
