import Mathlib.Tactic.Ring
import SaeOS.Fs.Dirents

/-!
# Directory listing in user space

`read_dir` of `libsaeos/src/fs.rs`: the records that `getdents64` left in the buffer are walked by their
lengths.
-/

namespace SaeOS.Libsaeos

open Text

inductive FileType
  | file
  | directory
  | charDevice
  | other
  deriving DecidableEq

def FileType.fromDirent (kind : UInt8) : FileType :=
  if kind = 8 then .file
  else if kind = 4 then .directory
  else if kind = 2 then .charDevice
  else .other

structure DirEntry where
  name : Text
  fileType : FileType
  deriving DecidableEq

/-- `from_le_bytes`. -/
def fromLeBytes : List UInt8 → ℕ
  | [] => 0
  | byte :: bytes => byte.toNat + 2 ^ 8 * fromLeBytes bytes

theorem toLeBytes_succ (width n : ℕ) :
    Fs.toLeBytes (width + 1) n = UInt8.ofNat n :: Fs.toLeBytes width (n / 2 ^ 8) := by
  rw [Fs.toLeBytes, List.range_succ_eq_map, List.map_cons, List.map_map, Fs.toLeBytes]
  congr 1
  · simp
  · refine List.map_congr_left fun i _ => ?_
    rw [Function.comp_apply, Nat.div_div_eq_div_mul, ← Nat.pow_add]
    congr 3
    omega

theorem length_toLeBytes (width n : ℕ) : (Fs.toLeBytes width n).length = width := by
  rw [Fs.toLeBytes, List.length_map, List.length_range]

theorem fromLeBytes_toLeBytes (width n : ℕ) :
    fromLeBytes (Fs.toLeBytes width n) = n % 2 ^ (8 * width) := by
  induction width generalizing n with
  | zero => simp [Fs.toLeBytes, fromLeBytes, Nat.mod_one]
  | succ width ih =>
    have hpow : 2 ^ (8 * (width + 1)) = 2 ^ 8 * 2 ^ (8 * width) := by ring
    rw [toLeBytes_succ, fromLeBytes, ih, hpow, Nat.mod_mul, UInt8.toNat_ofNat']

/-- The walk over `buffer[..count]`: the bytes of each record. A length that is too short or reaches
past the end stops it. -/
def records : ℕ → List UInt8 → List (List UInt8)
  | 0, _ => []
  | fuel + 1, bytes =>
    if 19 ≤ bytes.length then
      let length := fromLeBytes ((bytes.drop 16).take 2)
      if length < 19 ∨ length > bytes.length then []
      else bytes.take length :: records fuel (bytes.drop length)
    else []

/-- What `read_dir` makes of one record: the name ends at the first zero byte. -/
def dirEntryOf (record : List UInt8) : DirEntry where
  name := fromUtf8Lossy ((record.drop 19).takeWhile (· ≠ 0))
  fileType := .fromDirent (record.getD 18 0)

/-- The `d_off` of a record, which a program may pass to `lseek`. -/
def dOff (record : List UInt8) : ℕ :=
  fromLeBytes ((record.drop 8).take 8)

/-- The records of one call. Each has at least 19 bytes, so there are fewer than bytes. -/
def recordsOf (bytes : List UInt8) : List (List UInt8) :=
  records bytes.length bytes

end SaeOS.Libsaeos
