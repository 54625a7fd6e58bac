import Mathlib.Data.List.GetD
import SaeOS.Fs.Initramfs
import SaeOS.Fs.MkinitramfsPaths
import SaeOS.Lib.ByteWindow

/-!
# Initramfs round trip

What the kernel makes of an archive that the builder wrote. The writer's bytes are brought into closed
form (`entryBytes`, `entriesBytes`), the parser's loop is run over them, and the outcome is read off:
the members in order, less those named like the trailer, unless a name has a zero byte.
-/

namespace SaeOS.Initramfs

open ByteWindow Text
open Mkinitramfs (hexDigit hexField Clean refused refused_eq_false)

/-! ## Numbers -/

theorem toDigit_hexDigit {digit : ℕ} (h : digit < 16) : toDigit (hexDigit digit) = some digit := by
  have hall : ∀ digit < 16, toDigit (hexDigit digit) = some digit := by decide +kernel
  exact hall digit h

theorem shiftLeft_or_low (n : ℕ) : n >>> 4 <<< 4 ||| n &&& 0xf = n := by
  have hlow : n &&& 0xf = n % 2 ^ 4 := Nat.and_two_pow_sub_one_eq_mod n 4
  rw [hlow, ← Nat.shiftLeft_add_eq_or_of_lt (Nat.mod_lt n (by decide)), Nat.shiftLeft_eq,
    Nat.shiftRight_eq_div_pow, Nat.div_add_mod']

/-- The digits read so far are the number without its lower digits. -/
theorem foldlM_hexDigits (n : ℕ) (hn : n < 2 ^ 32) (count : ℕ) (hcount : count ≤ 8) :
    hex ((List.range count).map fun index => hexDigit (n >>> (4 * (7 - index)) &&& 0xf)) =
      .ok (n >>> (4 * (8 - count))) := by
  induction count with
  | zero =>
    rw [Nat.shiftRight_eq_zero n (4 * (8 - 0)) hn]
    rfl
  | succ count ih =>
    have hdigit : n >>> (4 * (7 - count)) &&& 0xf < 16 := Nat.and_lt_two_pow _ (by decide : 15 < 2 ^ 4)
    have hshift : n >>> (4 * (8 - count)) = n >>> (4 * (7 - count)) >>> 4 := by
      rw [← Nat.shiftRight_add]
      congr 1
      omega
    unfold hex at ih ⊢
    rw [List.range_succ, List.map_append, List.foldlM_append, ih (by omega)]
    simp only [List.map_cons, List.map_nil, List.foldlM_cons, List.foldlM_nil, bind, Except.bind,
      toDigit_hexDigit hdigit, pure, Except.pure]
    rw [hshift, shiftLeft_or_low, show 8 - (count + 1) = 7 - count by omega]

theorem hex_hexField {n : ℕ} (hn : n < 2 ^ 32) : hex (hexField n) = .ok n :=
  foldlM_hexDigits n hn 8 le_rfl

theorem length_hexField (n : ℕ) : (hexField n).length = 8 := by
  simp [hexField]

/-- The fields of a header stand behind each other. -/
theorem drop_flatMap {α β : Type*} {f : α → List β} {width : ℕ} (hwidth : ∀ a, (f a).length = width)
    (l : List α) (index : ℕ) : (l.flatMap f).drop (index * width) = (l.drop index).flatMap f := by
  induction index generalizing l with
  | zero => simp
  | succ index ih =>
    cases l with
    | nil => simp
    | cons a l =>
      rw [List.flatMap_cons, List.drop_succ_cons, ← ih l, Nat.succ_mul, Nat.add_comm,
        ← List.drop_drop, ← hwidth a, List.drop_left, hwidth a]

theorem mapM_ok {α β ε : Type*} {f : α → Except ε β} {g : α → β} {l : List α}
    (h : ∀ a ∈ l, f a = .ok (g a)) : l.mapM f = .ok (l.map g) := by
  induction l with
  | nil => rfl
  | cons a l ih =>
    rw [List.mapM_cons, h a List.mem_cons_self,
      ih fun b hb => h b (List.mem_cons_of_mem a hb)]
    rfl

/-- The thirteen fields are read back. -/
theorem headerFields_eq {fields : List ℕ} (hlength : fields.length = 13)
    (hfits : ∀ field ∈ fields, field < 2 ^ 32) :
    headerFields (Mkinitramfs.magic ++ fields.flatMap hexField) = .ok fields := by
  have hget : ∀ index ∈ List.range 13,
      hex (((Mkinitramfs.magic ++ fields.flatMap hexField).drop (6 + index * 8)).take 8) =
        .ok (fields.getD index 0) := by
    intro index hindex
    have hlt : index < fields.length := by rw [hlength]; exact List.mem_range.mp hindex
    have hmagic : Mkinitramfs.magic.length = 6 := rfl
    rw [← List.drop_drop, ← hmagic, List.drop_left, drop_flatMap length_hexField,
      List.drop_eq_getElem_cons hlt, List.flatMap_cons, ← length_hexField fields[index],
      List.take_left, hex_hexField (hfits _ (List.getElem_mem hlt)), List.getD_eq_getElem _ _ hlt]
  rw [headerFields, mapM_ok hget, ← hlength]
  congr 1
  refine List.ext_getElem (by simp) fun i _ h => ?_
  rw [List.getElem_map, List.getElem_range, List.getD_eq_getElem _ _ h]

/-! ## Names -/

/-- The components behind the first are appended with their slashes. -/
theorem foldlM_cleanPath {components : List Text} {path : Text} (hpath : path ≠ [])
    (hclean : ∀ component ∈ components, refused component = false) :
    components.foldlM (fun path component =>
      if component = [] ∨ component = ['.'] then Except.ok path
      else if component = ['.', '.'] then .error CpioError.badPath
      else if path ≠ [] then .ok (path ++ ['/'] ++ component)
      else .ok (path ++ component)) path =
        .ok (path ++ components.flatMap (['/'] ++ ·)) := by
  induction components generalizing path with
  | nil => simp [pure, Except.pure]
  | cons component components ih =>
    obtain ⟨hempty, hdot, hdots⟩ := refused_eq_false (hclean component List.mem_cons_self)
    have hpath' : path ++ ['/'] ++ component ≠ [] := by simp
    have hrest := ih hpath' fun c hc => hclean c (List.mem_cons_of_mem component hc)
    rw [List.foldlM_cons]
    simp only [hempty, hdot, hdots, or_self, if_false, ne_eq, hpath, not_false_eq_true, if_true, bind,
      Except.bind]
    simp only [ne_eq] at hrest
    rw [hrest, List.flatMap_cons]
    simp only [List.append_assoc]

theorem intercalate_cons_eq (component : Text) (components : List Text) :
    ['/'].intercalate (component :: components) =
      component ++ components.flatMap (['/'] ++ ·) := by
  induction components generalizing component with
  | nil => simp
  | cons next components ih =>
    rw [List.intercalate_cons_cons, ih, List.flatMap_cons, List.append_assoc, List.append_assoc]

theorem cleanPath_eq {path : Text} (h : Clean path) : cleanPath path = .ok path := by
  obtain ⟨-, hclean⟩ := h
  have hjoin : ['/'].intercalate (path.splitOn '/') = path := List.intercalate_splitOn '/'
  have hne := List.splitOn_ne_nil '/' path
  unfold cleanPath
  cases hsplit : path.splitOn '/' with
  | nil => exact absurd hsplit hne
  | cons component components =>
    rw [hsplit] at hclean hjoin
    obtain ⟨hempty, hdot, hdots⟩ := refused_eq_false (hclean component List.mem_cons_self)
    have hrest := foldlM_cleanPath hempty fun c hc => hclean c (List.mem_cons_of_mem component hc)
    rw [intercalate_cons_eq] at hjoin
    rw [List.foldlM_cons]
    simp only [hempty, hdot, hdots, or_self, if_false, ne_eq, not_true_eq_false, bind, Except.bind,
      List.nil_append]
    simp only [ne_eq] at hrest
    rw [hrest, hjoin]

/-! ## What the writer writes -/

/-- Zeros behind `length` bytes. -/
def padding (length : ℕ) : List UInt8 :=
  List.replicate (Layout.roundUp length 4 - length) 0

def entryFields (ino : ℕ) (mode : UInt32) (path : Text) (data : List UInt8) : List ℕ :=
  [ino, mode.toNat, 0, 0, if mode &&& Mkinitramfs.sIfmt = Mkinitramfs.sIfdir then 2 else 1, 0,
    data.length, 0, 0, 0, 0, (asBytes path).length + 1, 0]

def entryHeader (ino : ℕ) (mode : UInt32) (path : Text) (data : List UInt8) : List UInt8 :=
  Mkinitramfs.magic ++ (entryFields ino mode path data).flatMap hexField

/-- The bytes of one entry. -/
def entryBytes (ino : ℕ) (mode : UInt32) (path : Text) (data : List UInt8) : List UInt8 :=
  entryHeader ino mode path data ++ ((asBytes path ++ [0]) ++
    (padding (headerLen + ((asBytes path).length + 1)) ++ (data ++ padding data.length)))

theorem length_entryHeader (ino : ℕ) (mode : UInt32) (path : Text) (data : List UInt8) :
    (entryHeader ino mode path data).length = headerLen := by
  simp [entryHeader, entryFields, length_hexField, headerLen, Mkinitramfs.magic]

theorem length_padding (length : ℕ) : length + (padding length).length = Layout.roundUp length 4 := by
  have hle := Layout.le_roundUp (n := length) (k := 4) (by decide)
  rw [padding, List.length_replicate]
  omega

theorem roundUp_add {a b : ℕ} (h : 4 ∣ a) : Layout.roundUp (a + b) 4 = a + Layout.roundUp b 4 := by
  unfold Layout.roundUp
  omega

theorem pad_append (archive bytes : List UInt8) :
    Mkinitramfs.pad (archive ++ bytes) archive.length =
      archive ++ (bytes ++ padding bytes.length) := by
  rw [Mkinitramfs.pad, List.length_append, Nat.add_sub_cancel_left, List.append_assoc, padding]

/-- Behind an aligned beginning the padding depends only on the rest. -/
theorem padding_add {a b : ℕ} (h : 4 ∣ a) : padding (a + b) = padding b := by
  rw [padding, roundUp_add h, padding, Nat.add_sub_add_left]

theorem pad_append_aligned {bytes : List UInt8} (h : 4 ∣ bytes.length) (archive data : List UInt8) :
    Mkinitramfs.pad (archive ++ (bytes ++ data)) archive.length =
      archive ++ (bytes ++ (data ++ padding data.length)) := by
  rw [pad_append, List.length_append, padding_add h, List.append_assoc]

/-- The header and name have their four-byte multiple, and the data its own. -/
theorem length_entryBytes (ino : ℕ) (mode : UInt32) (path : Text) (data : List UInt8) :
    (entryBytes ino mode path data).length =
      Layout.roundUp (headerLen + ((asBytes path).length + 1)) 4 + Layout.roundUp data.length 4 := by
  have hname := length_padding (headerLen + ((asBytes path).length + 1))
  have hdata := length_padding data.length
  simp only [entryBytes, List.length_append, length_entryHeader, List.length_singleton]
  omega

/-- Both numbers that go into the header fit. -/
def Fits (path : Text) (data : List UInt8) : Prop :=
  data.length < 2 ^ 32 ∧ (asBytes path).length + 1 < 2 ^ 32

theorem pushEntry_eq_some {archive archive' : List UInt8} {ino : ℕ} {mode : UInt32} {path : Text}
    {data : List UInt8} : Mkinitramfs.pushEntry archive ino mode path data = some archive' ↔
      Fits path data ∧ archive' = archive ++ entryBytes ino mode path data := by
  unfold Mkinitramfs.pushEntry Mkinitramfs.expectU32 Fits
  by_cases hdata : data.length < 2 ^ 32
  · by_cases hname : (asBytes path).length + 1 < 2 ^ 32
    · simp only [hdata, hname, if_true, bind, Option.bind, pure, Option.some.injEq, and_self,
        true_and]
      rw [eq_comm]
      have hhead : (entryHeader ino mode path data ++ (asBytes path ++ [0])).length =
          headerLen + ((asBytes path).length + 1) := by
        rw [List.length_append, length_entryHeader, List.length_append, List.length_singleton]
      have hfirst : archive ++ Mkinitramfs.magic ++
          List.flatMap hexField (entryFields ino mode path data) ++ asBytes path ++ [0] =
            archive ++ (entryHeader ino mode path data ++ (asBytes path ++ [0])) := by
        simp only [entryHeader, List.append_assoc]
      -- the data starts aligned, so that its padding is its own
      have halign : 4 ∣ (entryHeader ino mode path data ++ (asBytes path ++ [0]) ++
          padding (headerLen + ((asBytes path).length + 1))).length := by
        rw [List.length_append, hhead, length_padding]
        exact Layout.dvd_roundUp
      rw [entryFields] at hfirst
      rw [hfirst, pad_append, hhead, List.append_assoc archive, pad_append_aligned halign, entryBytes]
      simp only [List.append_assoc]
    · simp only [hdata, hname, if_true, if_false, bind, Option.bind, reduceCtorEq, and_false,
        false_and]
  · simp only [hdata, if_false, bind, Option.bind, reduceCtorEq, false_and]

/-- The bytes of the members, numbered from `ino` on. -/
def entriesBytes : ℕ → List Mkinitramfs.Member → List UInt8
  | _, [] => []
  | ino, member :: members =>
    entryBytes ino member.mode member.path member.data ++ entriesBytes (ino + 1) members

theorem writeFrom_eq_some {members : List Mkinitramfs.Member} {archive archive' : List UInt8}
    {ino : ℕ} (hino : ino < 2 ^ 32) :
    Mkinitramfs.writeFrom archive ino members = some archive' ↔
      (∀ member ∈ members, Fits member.path member.data) ∧ ino + members.length < 2 ^ 32 ∧
        archive' = archive ++ entriesBytes ino members := by
  induction members generalizing archive ino with
  | nil =>
    simp only [Mkinitramfs.writeFrom, Option.some.injEq, entriesBytes, List.append_nil,
      List.not_mem_nil, false_implies, implies_true, List.length_nil, Nat.add_zero, hino, true_and]
    exact eq_comm
  | cons member members ih =>
    simp only [Mkinitramfs.writeFrom, Mkinitramfs.expectU32, bind, Option.bind_eq_some_iff,
      pushEntry_eq_some, List.forall_mem_cons, List.length_cons, entriesBytes, ← List.append_assoc]
    constructor
    · rintro ⟨next, hnext, _, ⟨hfits, rfl⟩, hrest⟩
      rw [Option.ite_none_right_eq_some, Option.some.injEq] at hnext
      obtain ⟨hlt, rfl⟩ := hnext
      obtain ⟨hall, hcount, rfl⟩ := (ih hlt).mp hrest
      exact ⟨⟨hfits, hall⟩, by omega, rfl⟩
    · rintro ⟨⟨hfits, hall⟩, hcount, rfl⟩
      have hlt : ino + 1 < 2 ^ 32 := by omega
      exact ⟨ino + 1, by rw [if_pos hlt], _, ⟨hfits, rfl⟩, (ih hlt).mpr ⟨hall, by omega, rfl⟩⟩

/-- The whole archive. -/
def archiveBytes (members : List Mkinitramfs.Member) : List UInt8 :=
  entriesBytes 1 members ++ entryBytes 0 0 Mkinitramfs.trailer []

theorem write_eq_some {members : List Mkinitramfs.Member} {archive : List UInt8} :
    Mkinitramfs.write members = some archive ↔
      (∀ member ∈ members, Fits member.path member.data) ∧ members.length + 1 < 2 ^ 32 ∧
        archive = archiveBytes members := by
  have htrailer : Fits Mkinitramfs.trailer [] := by
    unfold Fits
    decide +kernel
  simp only [Mkinitramfs.write, bind, Option.bind_eq_some_iff, writeFrom_eq_some (by decide : 1 < 2 ^ 32),
    pushEntry_eq_some, htrailer, true_and, archiveBytes, Nat.add_comm 1]
  constructor
  · rintro ⟨_, ⟨hfits, hcount, rfl⟩, rfl⟩
    exact ⟨hfits, hcount, rfl⟩
  · rintro ⟨hfits, hcount, rfl⟩
    exact ⟨_, ⟨hfits, hcount, rfl⟩, rfl⟩

/-! ## What the parser reads -/

variable {archive : List UInt8} {offset : ℕ}

theorem slice_of_at {bytes : List UInt8} (h : At archive offset archive.length bytes) :
    slice archive offset bytes.length = .ok bytes := by
  rw [slice, if_pos h.before, ← List.prefix_iff_eq_take.mp h.isPrefix]

/-- The name field of an entry: a zero byte in the name is refused. -/
theorem memberName_eq {path : Text} (hpath : path ≠ []) :
    memberName (asBytes path ++ [0]) = if '\x00' ∈ path then .error .badPath else .ok path := by
  have hlast : (asBytes path ++ [0]).getLast? = some 0 := List.getLast?_concat
  have hbytes : (asBytes path).isEmpty = false :=
    List.isEmpty_eq_false_iff.mpr (mt asBytes_eq_nil.mp hpath)
  unfold memberName
  simp only [hlast, List.dropLast_concat, hbytes, zero_mem_asBytes, fromUtf8_asBytes]
  by_cases hzero : '\x00' ∈ path
  · simp only [hzero]
    rfl
  · simp only [hzero]
    rfl

/-- An entry that the writer wrote is read back. -/
theorem readMember_eq {ino : ℕ} {mode : UInt32} {path : Text} {data : List UInt8}
    (hpath : path ≠ []) (hfits : Fits path data) (hino : ino < 2 ^ 32)
    (h : At archive offset archive.length (entryBytes ino mode path data)) :
    readMember archive offset = if '\x00' ∈ path then .error .badPath
      else .ok ⟨path, mode, data, offset + (entryBytes ino mode path data).length⟩ := by
  have hheader := slice_of_at h.left
  rw [length_entryHeader] at hheader
  have hrest := h.right
  rw [length_entryHeader] at hrest
  have hname := slice_of_at hrest.left
  rw [List.length_append, List.length_singleton] at hname
  -- the data stands behind the name and its padding
  have hdataStart : offset + headerLen + (asBytes path ++ [0]).length +
      (padding (headerLen + ((asBytes path).length + 1))).length =
        offset + Layout.roundUp (headerLen + ((asBytes path).length + 1)) 4 := by
    rw [← length_padding, List.length_append, List.length_singleton]
    omega
  have hbody := hrest.right.right
  rw [hdataStart] at hbody
  have hpadded := slice_of_at hbody
  rw [List.length_append, length_padding] at hpadded
  have hdata := List.prefix_iff_eq_take.mp hbody.left.isPrefix
  have hmagic : (entryHeader ino mode path data).take 6 = magic :=
    List.take_left' rfl
  have hlink : (if mode &&& Mkinitramfs.sIfmt = Mkinitramfs.sIfdir then 2 else 1) < 2 ^ 32 := by
    split <;> decide
  have hfields : headerFields (entryHeader ino mode path data) =
      .ok (entryFields ino mode path data) := by
    refine headerFields_eq rfl ?_
    simp only [entryFields, List.forall_mem_cons, hino, hlink, hfits.1, hfits.2, mode.toNat_lt]
    simp
  unfold readMember
  simp only [hheader, bind, Except.bind, hmagic, ne_eq, not_true_eq_false, if_false, hfields]
  simp only [entryFields, List.getD_cons_succ, List.getD_cons_zero, hname, memberName_eq hpath,
    UInt32.ofNat_toNat]
  by_cases hzero : '\x00' ∈ path
  · simp only [hzero, if_true]
  · simp only [hzero, if_false, hpadded, ← hdata, length_entryBytes]
    rw [← Nat.add_assoc offset]
    rfl

/-- A member that the image may have. -/
structure Sound (member : Mkinitramfs.Member) : Prop where
  clean : Clean member.path
  fits : Fits member.path member.data
  type : member.mode &&& Mkinitramfs.sIfmt = Mkinitramfs.sIfreg ∨
    member.mode &&& Mkinitramfs.sIfmt = Mkinitramfs.sIfdir ∧ member.data = []

/-- What the kernel should make of a member. -/
def entry (member : Mkinitramfs.Member) : Entry where
  path := member.path
  kind := if member.mode &&& Mkinitramfs.sIfmt = Mkinitramfs.sIfdir then .directory else .file
  data := member.data

theorem entryKind_eq {member : Mkinitramfs.Member} (h : Sound member) :
    entryKind member.mode member.path member.data.length = .ok (some (entry member).kind) := by
  have hfile : Mkinitramfs.sIfreg = sIfreg := rfl
  have hdir : Mkinitramfs.sIfdir = sIfdir := rfl
  have hmask : Mkinitramfs.sIfmt = sIfmt := rfl
  have hne : sIfreg ≠ sIfdir := by decide
  have htype := h.type
  rw [hfile, hdir, hmask] at htype
  rw [entryKind, entry, hdir, hmask]
  rcases htype with htype | ⟨htype, hdata⟩
  · rw [htype, if_pos rfl, if_pos h.clean.1, if_neg hne]
  · rw [htype, hdata, if_neg hne.symm, if_pos rfl, if_neg (by simp), if_neg h.clean.1, if_pos rfl]

/-- An entry starts with a digit, so nothing in front of it is skipped. -/
theorem skipZeros_of_at {ino : ℕ} {mode : UInt32} {path : Text} {data rest : List UInt8}
    (h : At archive offset archive.length (entryBytes ino mode path data ++ rest)) :
    skipZeros archive offset = offset := by
  obtain ⟨tail, htail⟩ := h.isPrefix
  rw [skipZeros, ← htail, entryBytes, entryHeader, Mkinitramfs.magic]
  rfl

theorem entryBytes_pos (ino : ℕ) (mode : UInt32) (path : Text) (data : List UInt8) :
    0 < (entryBytes ino mode path data).length := by
  have hle := Layout.le_roundUp (n := headerLen + ((asBytes path).length + 1)) (k := 4) (by decide)
  rw [length_entryBytes]
  unfold headerLen at *
  omega

theorem length_le_entriesBytes (ino : ℕ) (members : List Mkinitramfs.Member) :
    members.length ≤ (entriesBytes ino members).length := by
  induction members generalizing ino with
  | nil => exact Nat.zero_le _
  | cons member members ih =>
    have hpos := entryBytes_pos ino member.mode member.path member.data
    have hrest := ih (ino + 1)
    rw [entriesBytes, List.length_append, List.length_cons]
    omega

/-- Another entry, at the latest the trailer, follows a member. -/
theorem skipZeros_of_members {ino : ℕ} {members : List Mkinitramfs.Member}
    (h : At archive offset archive.length
      (entriesBytes ino members ++ entryBytes 0 0 Mkinitramfs.trailer [])) :
    skipZeros archive offset = offset := by
  cases members with
  | nil =>
    rw [entriesBytes, List.nil_append, ← List.append_nil (entryBytes 0 0 _ _)] at h
    exact skipZeros_of_at h
  | cons member members =>
    rw [entriesBytes, List.append_assoc] at h
    exact skipZeros_of_at h

/-- The trailer ends the archive. -/
theorem parseFrom_trailer {fuel : ℕ} {entries : List Entry}
    (h : At archive offset archive.length (entryBytes 0 0 Mkinitramfs.trailer []))
    (hend : offset + (entryBytes 0 0 Mkinitramfs.trailer []).length = archive.length) :
    parseFrom archive (fuel + 1) offset entries = .ok entries := by
  have hread := readMember_eq (by decide +kernel) (by unfold Fits; decide +kernel) (by decide) h
  rw [if_neg (by decide +kernel), hend] at hread
  have hskip : skipZeros archive archive.length = archive.length := by
    rw [skipZeros, List.drop_length]
    rfl
  rw [parseFrom, hread]
  simp only [bind, Except.bind, hskip]
  rfl

/-- The parser's loop over the members and the trailer: a name with a zero byte is an error, and a
member named like the trailer is taken for one. -/
theorem parseFrom_eq {members : List Mkinitramfs.Member} {ino fuel : ℕ} {entries : List Entry}
    (hsound : ∀ member ∈ members, Sound member) (hino : ino + members.length < 2 ^ 32)
    (hfuel : members.length < fuel)
    (h : At archive offset archive.length
      (entriesBytes ino members ++ entryBytes 0 0 Mkinitramfs.trailer []))
    (hend : offset + (entriesBytes ino members ++ entryBytes 0 0 Mkinitramfs.trailer []).length =
      archive.length) :
    parseFrom archive fuel offset entries =
      if ∃ member ∈ members, '\x00' ∈ member.path then .error .badPath
      else .ok (entries ++ (members.filter (·.path ≠ trailer)).map entry) := by
  induction members generalizing ino fuel offset entries with
  | nil =>
    obtain ⟨fuel, rfl⟩ := Nat.exists_eq_add_of_lt hfuel
    rw [List.length_nil, Nat.zero_add, parseFrom_trailer h hend]
    simp
  | cons member members ih =>
    obtain ⟨fuel, rfl⟩ := Nat.exists_eq_add_of_lt (Nat.zero_lt_of_lt hfuel)
    rw [Nat.zero_add] at hfuel ⊢
    rw [List.length_cons] at hfuel hino
    have hmember := hsound member List.mem_cons_self
    rw [entriesBytes, List.append_assoc] at h hend
    have hread := readMember_eq hmember.clean.1 hmember.fits (by omega) h.left
    have hnext := h.right
    rw [List.length_append, ← Nat.add_assoc] at hend
    have htail (entries : List Entry) : parseFrom archive fuel _ entries = _ :=
      ih (fun m hm => hsound m (List.mem_cons_of_mem member hm)) (by omega) (by omega) hnext hend
    rw [parseFrom, hread]
    by_cases hzero : '\x00' ∈ member.path
    · rw [if_pos hzero, if_pos ⟨member, List.mem_cons_self, hzero⟩]
      rfl
    · have hany : (∃ m ∈ member :: members, '\x00' ∈ m.path) ↔ ∃ m ∈ members, '\x00' ∈ m.path := by
        simp only [List.mem_cons, exists_eq_or_imp, hzero, false_or]
      rw [if_neg hzero]
      simp only [hany, bind, Except.bind]
      by_cases htrailer : member.path = trailer
      · -- the loop goes on with the next archive, which is the rest of this one
        have hpos := entryBytes_pos 0 0 Mkinitramfs.trailer []
        rw [List.length_append] at hend
        rw [if_pos htrailer, skipZeros_of_members hnext, if_neg (by omega), htail,
          List.filter_cons_of_neg (by simpa using htrailer)]
      · rw [if_neg htrailer, cleanPath_eq hmember.clean]
        simp only [entryKind_eq hmember]
        rw [htail, List.filter_cons_of_pos (by simpa using htrailer), List.map_cons, List.append_assoc]
        rfl

/-- What the kernel makes of an archive that the builder wrote. -/
theorem parse_write {members : List Mkinitramfs.Member}
    (hsound : ∀ member ∈ members, Sound member) (hwrite : Mkinitramfs.write members = some archive) :
    parse archive = if ∃ member ∈ members, '\x00' ∈ member.path then .error .badPath
      else .ok ((members.filter (·.path ≠ trailer)).map entry) := by
  obtain ⟨-, hcount, rfl⟩ := write_eq_some.mp hwrite
  have hlength := length_le_entriesBytes 1 members
  have hat : At (archiveBytes members) 0 (archiveBytes members).length
      (entriesBytes 1 members ++ entryBytes 0 0 Mkinitramfs.trailer []) :=
    ⟨List.prefix_rfl, by rw [Nat.zero_add, archiveBytes]⟩
  refine parseFrom_eq hsound (by omega) ?_ hat ?_
  · rw [archiveBytes, List.length_append]
    omega
  · rw [Nat.zero_add, archiveBytes]

/-! ## The round trip -/

/-- A path that survives the archive: no zero byte, not the trailer or a path below it, and short
enough for the header. -/
def Archivable (path : Text) : Prop :=
  '\x00' ∉ path ∧ (path.splitOn '/').head? ≠ some Mkinitramfs.trailer ∧
    (asBytes path).length + 1 < 2 ^ 32

/-- Every target is archivable, and the inode numbers do not run out. -/
def Representable (calls : List Mkinitramfs.Call) : Prop :=
  (∀ call ∈ calls, ∀ path, Mkinitramfs.relative call.target = .ok path → Archivable path) ∧
    (Mkinitramfs.named calls).ncard + 1 < 2 ^ 32

theorem trailer_splitOn : Mkinitramfs.trailer.splitOn '/' = [Mkinitramfs.trailer] :=
  List.splitOn_eq_singleton (by decide +kernel)

/-- The targets are archivable when every named path is; only the trailer's own name is special. -/
theorem archivable_iff {calls : List Mkinitramfs.Call} :
    (∀ call ∈ calls, ∀ path, Mkinitramfs.relative call.target = .ok path → Archivable path) ↔
      ∀ dir ∈ Mkinitramfs.named calls,
        '\x00' ∉ dir ∧ dir ≠ Mkinitramfs.trailer ∧ (asBytes dir).length + 1 < 2 ^ 32 := by
  constructor
  · rintro h dir ⟨call, hcall, path, hrelative, habove⟩
    obtain ⟨hzero, hhead, hlength⟩ := h call hcall path hrelative
    obtain ⟨rest, hrest⟩ := habove.isPrefix
    refine ⟨fun hmem => hzero (habove.isPrefix.subset hmem), ?_, ?_⟩
    · rintro rfl
      obtain ⟨components, hcomponents⟩ := habove.splitOn_prefix
      rw [trailer_splitOn] at hcomponents
      exact hhead (by rw [← hcomponents]; rfl)
    · rw [← hrest, asBytes_append, List.length_append] at hlength
      omega
  · intro h call hcall path hrelative
    by_cases hne : path = []
    · subst hne
      exact ⟨List.not_mem_nil, by decide +kernel, by decide⟩
    · have hclean := Mkinitramfs.clean_of_relative hrelative hne
      obtain ⟨hzero, -, hlength⟩ := h path ⟨call, hcall, path, hrelative, hclean.above_self⟩
      refine ⟨hzero, fun hhead => ?_, hlength⟩
      exact (h _ ⟨call, hcall, path, hrelative, hclean.above_head hhead⟩).2.1 rfl

/-- The members of an image that was built from plain files. -/
theorem sound_of_mem {calls : List Mkinitramfs.Call} {image : Mkinitramfs.Image}
    (hbuild : Mkinitramfs.build calls = .ok image)
    (hfiles : ∀ target mode data, Mkinitramfs.Call.addFile target mode data ∈ calls →
      mode &&& Mkinitramfs.sIfmt = 0)
    {member : Mkinitramfs.Member} (hmember : member ∈ image.members)
    (hfits : Fits member.path member.data) : Sound member := by
  obtain ⟨hnamed, hnodes⟩ := Mkinitramfs.build_ok hbuild
  obtain ⟨path, node, hnode, rfl⟩ := Mkinitramfs.mem_members.mp hmember
  refine ⟨?_, hfits, ?_⟩
  · rw [Mkinitramfs.path_member]
    exact Mkinitramfs.clean_of_named ((hnamed path).mp (by rw [hnode]; rfl))
  · cases node with
    | directory =>
      have hdirectory : (Mkinitramfs.sIfdir ||| 0o755) &&& Mkinitramfs.sIfmt = Mkinitramfs.sIfdir := by
        decide
      exact .inr ⟨hdirectory, rfl⟩
    | file mode data =>
      obtain ⟨target, hcall⟩ := hnodes hnode
      left
      have hregular : Mkinitramfs.sIfreg &&& Mkinitramfs.sIfmt = Mkinitramfs.sIfreg := by decide
      have hdistrib : (Mkinitramfs.sIfreg ||| mode) &&& Mkinitramfs.sIfmt =
          Mkinitramfs.sIfreg &&& Mkinitramfs.sIfmt ||| mode &&& Mkinitramfs.sIfmt :=
        UInt32.toBitVec_inj.mp BitVec.and_or_distrib_right
      rw [Mkinitramfs.member, hdistrib, hfiles target mode data hcall, hregular, UInt32.or_zero]

/-- The kernel reads back exactly the members of an image that was built from accepted calls if and
only if the targets are representable. -/
theorem parse_toCpio_iff {calls : List Mkinitramfs.Call} {image : Mkinitramfs.Image}
    (hbuild : Mkinitramfs.build calls = .ok image)
    (hfiles : ∀ target mode data, Mkinitramfs.Call.addFile target mode data ∈ calls →
      mode &&& Mkinitramfs.sIfmt = 0 ∧ data.length < 2 ^ 32) :
    (∃ archive, image.toCpio = some archive ∧ parse archive = .ok (image.members.map entry)) ↔
      Representable calls := by
  obtain ⟨hnamed, hnodes⟩ := Mkinitramfs.build_ok hbuild
  have hmodes := fun target mode data h => (hfiles target mode data h).1
  rw [Representable, archivable_iff, ← Mkinitramfs.length_members hbuild]
  constructor
  · rintro ⟨archive, hwrite, hparse⟩
    obtain ⟨hfits, hcount, -⟩ := write_eq_some.mp hwrite
    refine ⟨fun dir hdir => ?_, hcount⟩
    rw [parse_write (fun m hm => sound_of_mem hbuild hmodes hm (hfits m hm)) hwrite] at hparse
    obtain ⟨node, hnode⟩ := Option.isSome_iff_exists.mp ((hnamed dir).mpr hdir)
    have hmem : Mkinitramfs.member dir node ∈ image.members :=
      Mkinitramfs.mem_members.mpr ⟨dir, node, hnode, rfl⟩
    have hpath := Mkinitramfs.path_member dir node
    split at hparse
    · contradiction
    · rename_i hzero
      -- nothing was taken for the trailer
      have hlength := congrArg List.length (Except.ok.inj hparse)
      rw [List.length_map, List.length_map, List.length_filter_eq_length_iff] at hlength
      refine ⟨fun hzero' => hzero ⟨_, hmem, hpath.symm ▸ hzero'⟩, ?_, hpath ▸ (hfits _ hmem).2⟩
      have hother := hlength _ hmem
      rw [hpath] at hother
      exact of_decide_eq_true hother
  · rintro ⟨hpaths, hcount⟩
    have hmember : ∀ m ∈ image.members, m.path ∈ Mkinitramfs.named calls ∧
        m.data.length < 2 ^ 32 := by
      intro m hm
      obtain ⟨path, node, hnode, rfl⟩ := Mkinitramfs.mem_members.mp hm
      refine ⟨?_, ?_⟩
      · rw [Mkinitramfs.path_member]
        exact (hnamed path).mp (by rw [hnode]; rfl)
      · cases node with
        | directory => exact (by decide : 0 < 2 ^ 32)
        | file mode data =>
          obtain ⟨target, hcall⟩ := hnodes hnode
          exact (hfiles target mode data hcall).2
    have hfits : ∀ m ∈ image.members, Fits m.path m.data := fun m hm =>
      ⟨(hmember m hm).2, (hpaths _ (hmember m hm).1).2.2⟩
    have hwrite := write_eq_some.mpr ⟨hfits, hcount, rfl⟩
    refine ⟨_, hwrite, ?_⟩
    rw [parse_write (fun m hm => sound_of_mem hbuild hmodes hm (hfits m hm)) hwrite, if_neg]
    · congr 2
      refine List.filter_eq_self.mpr fun m hm => ?_
      exact decide_eq_true (hpaths _ (hmember m hm).1).2.1
    · rintro ⟨m, hm, hzero⟩
      exact (hpaths _ (hmember m hm).1).1 hzero

theorem parse_toCpio_iff_oneFile :
    ∃ image, Mkinitramfs.build [.addFile "/etc/hello".toList 0o644 [0x68, 0x69]] = .ok image ∧
      ∃ archive, image.toCpio = some archive ∧ parse archive = .ok (image.members.map entry) := by
  set calls : List Mkinitramfs.Call := [.addFile "/etc/hello".toList 0o644 [0x68, 0x69]]
  have hrun : (Mkinitramfs.build calls).toOption.map (·.members.length) = some 2 := by
    decide +kernel
  have hrelative : Mkinitramfs.relative "/etc/hello".toList = .ok "etc/hello".toList := by
    decide +kernel
  cases hbuild : Mkinitramfs.build calls with
  | error message => cases hbuild ▸ hrun
  | ok image =>
    refine ⟨image, rfl, (parse_toCpio_iff hbuild ?_).mpr ⟨?_, ?_⟩⟩
    · intro target mode data hmem
      obtain ⟨-, rfl, rfl⟩ := Mkinitramfs.Call.addFile.inj (List.mem_singleton.mp hmem)
      exact ⟨by decide, by decide⟩
    · intro call hcall path hpath
      obtain rfl := List.mem_singleton.mp hcall
      obtain rfl := Except.ok.inj (hrelative.symm.trans hpath)
      exact ⟨by decide +kernel, by decide +kernel, by decide +kernel⟩
    · rw [hbuild] at hrun
      have hlength : image.members.length = 2 := Option.some.inj hrun
      rw [← Mkinitramfs.length_members hbuild, hlength]
      decide

/-- A file that is named like the trailer is accepted by the builder and dropped by the kernel. -/
theorem not_parse_toCpio_trailer :
    ∃ image, Mkinitramfs.build [.addFile "/TRAILER!!!".toList 0o644 [1]] = .ok image ∧
      ¬ ∃ archive, image.toCpio = some archive ∧ parse archive = .ok (image.members.map entry) := by
  have hrun : (Mkinitramfs.build [.addFile "/TRAILER!!!".toList 0o644 [1]]).toOption.map
      (fun image => (image.toCpio.map parse, image.members.map entry)) =
        some (some (.ok []), [⟨"TRAILER!!!".toList, .file, [1]⟩]) := by
    decide +kernel
  cases hbuild : Mkinitramfs.build [.addFile "/TRAILER!!!".toList 0o644 [1]] with
  | error message => cases hbuild ▸ hrun
  | ok image =>
    rw [hbuild] at hrun
    obtain ⟨hparse, hmembers⟩ := Prod.mk.inj (Option.some.inj hrun)
    refine ⟨image, rfl, ?_⟩
    rintro ⟨archive, hwrite, hread⟩
    rw [hwrite, Option.map_some, hread, hmembers] at hparse
    contradiction

end SaeOS.Initramfs
