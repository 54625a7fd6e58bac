import Mathlib.Data.List.Rotate
import SaeOS.Lib.Checked
import SaeOS.Lib.Recent

/-!
# The kernel log ring

`klog_ring.rs`: a byte array of fixed capacity into which the log is written around and around. Slices out
of range and a remainder by zero panic; the sums stay below twice the capacity and do not overflow.
-/

namespace SaeOS.Klog

open Checked

structure Ring (capacity : ℕ) where
  bytes : List UInt8
  /-- Next write position. -/
  head : ℕ
  /-- Bytes currently stored. -/
  len : ℕ
  deriving Repr

namespace Ring

variable {capacity : ℕ}

def new (capacity : ℕ) : Ring capacity where
  bytes := List.replicate capacity 0
  head := 0
  len := 0

/-- Append `data`, overwriting the oldest bytes once full. -/
def push (ring : Ring capacity) (data : List UInt8) : Checked Empty (Ring capacity) := do
  let data ← slice data (data.length - capacity) data.length
  let room ← subWord capacity ring.head
  let first := min data.length room
  let bytes ← copyInto ring.bytes ring.head (← slice data 0 first)
  let bytes ← copyInto bytes 0 (← slice data first data.length)
  let head ← remWord (ring.head + data.length) capacity
  return { bytes, head, len := min (ring.len + data.length) capacity }

/-- The stored bytes, oldest first, as up to two slices. -/
def asSlices (ring : Ring capacity) : Checked Empty (List UInt8 × List UInt8) := do
  let start ← remWord (← subWord (ring.head + capacity) ring.len) capacity
  if start + ring.len ≤ capacity then
    return (← slice ring.bytes start (start + ring.len), [])
  else
    return (← slice ring.bytes start ring.bytes.length, ← slice ring.bytes 0 ring.head)

/-- The byte of two slices, the one behind the other. -/
def byteAt (first second : List UInt8) (i : ℕ) : Checked Empty UInt8 :=
  if i < first.length then index first i else index second (i - first.length)

/-- Whether `needle` occurs in the stored bytes. -/
def contains (ring : Ring capacity) (needle : List UInt8) : Checked Empty Bool := do
  let (first, second) ← ring.asSlices
  if needle.length > ring.len then return false
  (List.range (ring.len - needle.length + 1)).anyM fun start =>
    (List.range needle.length).allM fun offset => do
      let byte ← byteAt first second (start + offset)
      return byte = (← index needle offset)

/-- Every push in turn, on a new ring. -/
def run (capacity : ℕ) (pushes : List (List UInt8)) : Checked Empty (Ring capacity) :=
  pushes.foldlM push (new capacity)

/-! ## What the array holds -/

/-- Read from the write position around, the array is the end of a stream: first zeros, then `total`. -/
structure Holds (ring : Ring capacity) (total : List UInt8) : Prop where
  length_bytes : ring.bytes.length = capacity
  head_lt : ring.head < capacity
  around : ring.bytes.drop ring.head ++ ring.bytes.take ring.head =
    (List.replicate capacity 0 ++ total).rtake capacity
  len_eq : ring.len = min total.length capacity

variable {ring : Ring capacity} {total data needle : List UInt8}

theorem holds_new (hpos : 0 < capacity) : (new capacity).Holds [] where
  length_bytes := List.length_replicate
  head_lt := hpos
  around := by
    rw [List.append_nil, Recent.rtake_of_length_le (le_of_eq List.length_replicate)]
    exact List.append_nil _
  len_eq := (Nat.zero_min capacity).symm

/-- Writing at a position around the array drops as many bytes as are written, at the other end. -/
theorem around_copied {bytes : List UInt8} {head first : ℕ} (hbytes : bytes.length = capacity)
    (hhead : head < capacity) (hdata : data.length ≤ capacity)
    (hfirst : first = min data.length (capacity - head)) :
    let front := bytes.take head ++ data.take first ++ bytes.drop (head + (data.take first).length)
    let copied := front.take 0 ++ data.drop first ++ front.drop (0 + (data.drop first).length)
    let next := (head + data.length) % capacity
    copied.drop next ++ copied.take next = (bytes.drop head ++ bytes.take head ++ data).rtake capacity := by
  intro front copied next
  have htake : (bytes.take head).length = head := by
    rw [List.length_take]
    omega
  have hcut : (bytes.drop head ++ bytes.take head ++ data).rtake capacity =
      (bytes.drop head ++ bytes.take head).drop data.length ++ data := by
    rw [Recent.rtake_append_of_ge _ hdata, List.rtake]
    simp only [List.length_append, List.length_drop, htake, hbytes]
    congr 2
    omega
  rw [hcut]
  rcases Nat.lt_or_ge capacity (head + data.length) with hwraps | hfits
  · -- the data goes on at the start of the array
    have hfirst : first = capacity - head := by omega
    have hlength : (data.take first).length = capacity - head := by
      rw [List.length_take]
      omega
    have hrest : (data.drop first).length = head + data.length - capacity := by
      rw [List.length_drop]
      omega
    have hfront : front = bytes.take head ++ data.take first := by
      simp only [front]
      rw [hlength, List.drop_eq_nil_of_le (by omega), List.append_nil]
    have hcopied : copied = data.drop first ++ (bytes.take head).drop (head + data.length - capacity) ++
        data.take first := by
      simp only [copied]
      rw [List.take_zero, List.nil_append, Nat.zero_add, hrest, hfront,
        List.drop_append_of_le_length (by omega), List.append_assoc]
    have hnext : next = (data.drop first).length := by
      simp only [next]
      rw [hrest, Nat.mod_eq_sub_mod (by omega), Nat.mod_eq_of_lt (by omega)]
    have hdropped : (bytes.drop head ++ bytes.take head).drop data.length =
        (bytes.take head).drop (head + data.length - capacity) := by
      have hlast : (bytes.drop head).length = capacity - head := by rw [List.length_drop, hbytes]
      rw [List.drop_append, List.drop_eq_nil_of_le (by omega), List.nil_append, hlast]
      congr 1
      omega
    rw [hdropped, hcopied, hnext, List.append_assoc, List.drop_left, List.take_left, List.append_assoc,
      List.take_append_drop]
  · -- the data fits before the end of the array
    have hfirst : first = data.length := by omega
    have hcopied : copied = bytes.take head ++ data ++ bytes.drop (head + data.length) := by
      simp only [copied, front]
      rw [hfirst, List.take_length, List.drop_length]
      rfl
    have hleft : (bytes.take head ++ data).length = head + data.length := by
      rw [List.length_append, htake]
    have hdropped : (bytes.drop head ++ bytes.take head).drop data.length =
        bytes.drop (head + data.length) ++ bytes.take head := by
      rw [List.drop_append_of_le_length (by rw [List.length_drop]; omega), List.drop_drop]
    rw [hdropped, List.append_assoc, hcopied]
    rcases Nat.lt_or_ge (head + data.length) capacity with hlt | hge
    · have hnext : next = (bytes.take head ++ data).length := by
        rw [hleft]
        exact Nat.mod_eq_of_lt hlt
      rw [hnext, List.drop_left, List.take_left]
    · have hnext : next = 0 := by
        simp only [next]
        rw [Nat.le_antisymm hfits hge, Nat.mod_self]
      rw [hnext, List.drop_zero, List.take_zero, List.append_nil, List.drop_eq_nil_of_le (by omega),
        List.append_nil, List.nil_append]

/-- A push does not panic and continues the stream. -/
theorem Holds.push (h : ring.Holds total) (data : List UInt8) :
    Safe (fun _ => False) (ring.push data) fun ring' => ring'.Holds (total ++ data) := by
  have hbytes := h.length_bytes
  have hhead := h.head_lt
  have hlen := h.len_eq
  refine (Safe.slice (by omega) le_rfl).bind ?_
  rintro _ rfl
  rw [← List.length_drop, List.take_length]
  -- only the end of the data, which is no longer than the array, is written
  set kept := data.drop (data.length - capacity) with hkept
  have hcut : kept = data.rtake capacity := rfl
  have hle : kept.length ≤ capacity := by
    rw [hcut, Recent.length_rtake]
    omega
  refine (Safe.subWord hhead.le).bind ?_
  rintro _ rfl
  refine (Safe.slice (Nat.zero_le _) (by omega)).bind ?_
  rintro _ rfl
  rw [List.drop_zero, Nat.sub_zero]
  set first := min kept.length (capacity - ring.head) with hfirst
  have hfront : (kept.take first).length = first := by
    rw [List.length_take]
    omega
  refine (Safe.copyInto (by omega)).bind ?_
  rintro _ rfl
  refine (Safe.slice (by omega) le_rfl).bind ?_
  rintro _ rfl
  have hrest : (kept.drop first).length = kept.length - first := List.length_drop
  have hwhole : (kept.drop first).take (kept.length - first) = kept.drop first :=
    List.take_of_length_le hrest.le
  rw [hwhole]
  set front := ring.bytes.take ring.head ++ kept.take first ++
    ring.bytes.drop (ring.head + (kept.take first).length) with hfrontDef
  have hfrontLength : front.length = capacity := by
    simp only [hfrontDef, List.length_append, List.length_take, List.length_drop]
    omega
  refine (Safe.copyInto (by omega)).bind ?_
  rintro _ rfl
  refine (Safe.remWord (by omega)).bind ?_
  rintro _ rfl
  refine .pure ⟨?_, Nat.mod_lt _ (by omega), ?_, ?_⟩
  · simp only [List.length_append, List.length_take, List.length_drop]
    omega
  · rw [around_copied hbytes hhead hle hfirst, h.around, Recent.rtake_append_left, hcut,
      Recent.rtake_append_right, List.append_assoc]
  · have hkeptLength : kept.length = min capacity data.length := by rw [hcut, Recent.length_rtake]
    simp only [List.length_append]
    omega

/-- What is stored: the last bytes of the stream. -/
theorem Holds.stored (h : ring.Holds total) :
    (ring.bytes.drop ring.head ++ ring.bytes.take ring.head).rtake ring.len = total.rtake capacity := by
  have hlen := h.len_eq
  rw [h.around, Recent.rtake_rtake_of_le _ (by omega), Recent.rtake_append_of_le _ (by omega)]
  rcases Nat.le_total total.length capacity with hle | hge
  · rw [Recent.rtake_of_length_le (by omega), Recent.rtake_of_length_le hle]
  · rw [hlen, Nat.min_eq_right hge]

/-- The two slices are the stored bytes. -/
theorem Holds.asSlices (h : ring.Holds total) :
    Safe (fun _ => False) ring.asSlices fun slices => slices.1 ++ slices.2 = total.rtake capacity := by
  have hbytes := h.length_bytes
  have hhead := h.head_lt
  have hlen := h.len_eq
  rw [← h.stored]
  refine (Safe.subWord (by omega)).bind ?_
  rintro _ rfl
  refine (Safe.remWord (by omega)).bind ?_
  rintro _ rfl
  have htake : (ring.bytes.take ring.head).length = ring.head := by
    rw [List.length_take]
    omega
  have hdrop : (ring.bytes.drop ring.head).length = capacity - ring.head := by
    rw [List.length_drop, hbytes]
  rcases Nat.lt_or_ge ring.head ring.len with hwraps | hfits
  · have hstart : (ring.head + capacity - ring.len) % capacity = ring.head + capacity - ring.len :=
      Nat.mod_eq_of_lt (by omega)
    have hcut : (ring.bytes.drop ring.head ++ ring.bytes.take ring.head).rtake ring.len =
        ring.bytes.drop (ring.head + capacity - ring.len) ++ ring.bytes.take ring.head := by
      rw [Recent.rtake_append_of_ge _ (by omega), List.rtake, List.drop_drop]
      congr 2
      omega
    rw [hstart, hcut]
    by_cases hzero : ring.head = 0
    · -- the stored bytes end where the array ends
      rw [if_pos (by omega)]
      refine (Safe.slice (by omega) (by omega)).bind ?_
      rintro _ rfl
      refine .pure ?_
      rw [hzero, List.take_zero, List.take_of_length_le (by rw [List.length_drop]; omega)]
    · rw [if_neg (by omega)]
      refine (Safe.slice (by omega) le_rfl).bind ?_
      rintro _ rfl
      refine (Safe.slice (Nat.zero_le _) (by omega)).bind ?_
      rintro _ rfl
      refine .pure ?_
      rw [List.take_of_length_le (by rw [List.length_drop]), List.drop_zero, Nat.sub_zero]
  · have hstart : (ring.head + capacity - ring.len) % capacity = ring.head - ring.len := by
      rw [Nat.sub_add_comm hfits, Nat.add_mod_right, Nat.mod_eq_of_lt (by omega)]
    rw [hstart, if_pos (by omega)]
    refine (Safe.slice (by omega) (by omega)).bind ?_
    rintro _ rfl
    refine .pure ?_
    rw [List.append_nil, Recent.rtake_append_of_le _ (by omega), List.rtake, htake, List.drop_take,
      Nat.add_sub_cancel_left, Nat.sub_sub_self hfits]

/-- A byte of the slices is the byte of the whole. -/
theorem byteAt_spec {first second : List UInt8} {i : ℕ} (h : i < (first ++ second).length) :
    Safe (fun _ => False) (byteAt first second i) ((first ++ second)[i]? = some ·) := by
  rw [List.length_append] at h
  unfold byteAt
  split
  · rename_i hlt
    rw [List.getElem?_append_left hlt]
    exact .index hlt
  · rename_i hge
    rw [List.getElem?_append_right (by omega)]
    exact .index (by omega)

/-- A search does not panic and finds what occurs in the stored bytes, also across the two slices. -/
theorem Holds.contains (h : ring.Holds total) (needle : List UInt8) :
    Safe (fun _ => False) (ring.contains needle) fun found =>
      found = true ↔ needle <:+: total.rtake capacity := by
  have hlen : (total.rtake capacity).length = ring.len := by
    rw [Recent.length_rtake, h.len_eq, Nat.min_comm]
  refine h.asSlices.bind fun (first, second) hslices => ?_
  dsimp only at hslices ⊢
  rw [Recent.isInfix_iff, hlen]
  split
  · rename_i hlonger
    exact Safe.pure ⟨(by simp), fun hfound => absurd hfound.1 (by omega)⟩
  rename_i hfits
  rw [and_iff_right (by omega)]
  refine Safe.anyM_iff fun start hstart => ?_
  rw [List.mem_range] at hstart
  have htest : ∀ offset ∈ List.range needle.length,
      Safe (fun _ => False) (do
        let byte ← byteAt first second (start + offset)
        return byte = (← index needle offset) : Checked Empty Bool)
      fun same => same = true ↔ (total.rtake capacity)[start + offset]? = needle[offset]? := by
    intro offset hoffset
    rw [List.mem_range] at hoffset
    refine (byteAt_spec (by rw [hslices]; omega)).bind fun byte hbyte => ?_
    refine (Safe.index hoffset).bind fun expected hexpected => ?_
    refine .pure ?_
    rw [← hslices, hbyte, hexpected, decide_eq_true_iff, Option.some.injEq]
  refine (Safe.allM_iff htest).mono fun found hfound => ?_
  rw [hfound]
  exact forall_congr' fun offset => by rw [List.mem_range]

/-- The pushes done make up the stream so far. -/
theorem run_holds (hpos : 0 < capacity) (pushes : List (List UInt8)) :
    Safe (fun _ => False) (run capacity pushes) fun ring => ring.Holds pushes.flatten := by
  have hinit : (new capacity).Holds ([] : List (List UInt8)).flatten := holds_new hpos
  refine Safe.foldlM_upto (fun done (ring : Ring capacity) => ring.Holds done.flatten) [] hinit ?_
  intro done ring data _ hholds
  rw [List.flatten_append, List.flatten_singleton]
  exact hholds.push data

end Ring

/-- **The log ring.** With a capacity, any pushes succeed; the two slices are the last bytes of everything
pushed, and a search finds exactly what occurs in them. -/
theorem run_stored {capacity : ℕ} (hpos : 0 < capacity) (pushes : List (List UInt8)) :
    ∃ ring, (Ring.run capacity pushes).run = some (.ok ring) ∧
      (∃ first second, ring.asSlices.run = some (.ok (first, second)) ∧
        first ++ second = pushes.flatten.rtake capacity) ∧
      ∀ needle, ∃ found, (ring.contains needle).run = some (.ok found) ∧
        (found = true ↔ needle <:+: pushes.flatten.rtake capacity) := by
  obtain ⟨ring, hrun, hholds⟩ := (Ring.run_holds hpos pushes).succeeds
  obtain ⟨slices, hslices, hstored⟩ := hholds.asSlices.succeeds
  exact ⟨ring, hrun, ⟨slices.1, slices.2, hslices, hstored⟩, fun needle => (hholds.contains needle).succeeds⟩

/-- Three pushes on four bytes, the last across the end of the array. -/
theorem run_stored_wrapped :
    ∃ ring, (Ring.run 4 [[1, 2, 3], [], [4, 5]]).run = some (.ok ring) ∧
      (∃ first second, ring.asSlices.run = some (.ok (first, second)) ∧
        first ++ second = [[1, 2, 3], [], [4, 5]].flatten.rtake 4) ∧
      ∀ needle, ∃ found, (ring.contains needle).run = some (.ok found) ∧
        (found = true ↔ needle <:+: [[1, 2, 3], [], [4, 5]].flatten.rtake 4) :=
  run_stored (by decide) [[1, 2, 3], [], [4, 5]]

/-- Without a capacity the write position has no remainder: even an empty push panics. -/
theorem run_no_capacity :
    (Ring.run 0 [[]]).run = none ∧ (Ring.new 0).asSlices.run = none :=
  ⟨rfl, rfl⟩

end SaeOS.Klog
