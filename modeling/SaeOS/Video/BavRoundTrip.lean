import Mathlib.Algebra.Order.BigOperators.Group.List
import Mathlib.Tactic.Linarith
import Mathlib.Tactic.Ring
import SaeOS.Lib.ByteWindow
import SaeOS.Video.Bav

/-!
# BAV round trip

What the encoder writes for a row, a frame and a video is read back by the decoder, from any offset:
`At data offset stop bytes` says that the bytes stand there, and each part of the decoder has one
lemma about the bytes of the corresponding part of the encoder.
-/

namespace SaeOS.Bav

open ByteWindow Leb128

/-! ## Reading -/

variable {data a b : List UInt8} {offset stop : ℕ}

/-- Bits above those of a value. -/
theorem or_shiftLeft {value shift : ℕ} (h : value < 2 ^ shift) (n : ℕ) :
    value ||| n <<< shift = value + n * 2 ^ shift := by
  rw [Nat.or_comm, ← Nat.shiftLeft_add_eq_or_of_lt h, Nat.shiftLeft_eq, Nat.add_comm]

/-- The loop of `varint` adds the bits of an encoded number above those it has. -/
theorem varintFrom_encode {shift count value v : ℕ} (hvalue : value < 2 ^ shift)
    (hv : v < 128 ^ (count + 1)) (h : At data offset stop (encode v)) :
    Decoder.varintFrom data stop (List.range' shift (count + 1) 7) value offset =
      .ok (value + v * 2 ^ shift, offset + (encode v).length) := by
  -- induction on the shifts that are left
  induction count generalizing shift value v offset with
  | zero =>
    rcases encode_cases v with ⟨-, byte, heq, hpayload, hmore⟩ | ⟨hge, -⟩
    · rw [heq] at h ⊢
      rw [List.range'_succ, Decoder.varintFrom, h.head]
      simp only [hmore, hpayload, or_shiftLeft hvalue, List.length_singleton]
      rfl
    · omega
  | succ count ih =>
    rcases encode_cases v with ⟨-, byte, heq, hpayload, hmore⟩ | ⟨-, byte, heq, hpayload, hmore⟩
    · rw [heq] at h ⊢
      rw [List.range'_succ, Decoder.varintFrom, h.head]
      simp only [hmore, hpayload, or_shiftLeft hvalue, List.length_singleton]
      rfl
    · rw [heq] at h ⊢
      have hmod : v % 128 < 128 := Nat.mod_lt _ (by decide)
      have hpow : 2 ^ (shift + 7) = 128 * 2 ^ shift := by rw [pow_add]; ring
      have hvalue' : value + v % 128 * 2 ^ shift < 2 ^ (shift + 7) := by
        rw [hpow]
        nlinarith
      have hv' : v / 128 < 128 ^ (count + 1) := by
        rw [pow_succ] at hv
        exact Nat.div_lt_of_lt_mul (by rwa [mul_comm])
      have hrest := ih hvalue' hv' h.tail
      rw [List.range'_succ, Decoder.varintFrom, h.head]
      simp only [hmore, hpayload, or_shiftLeft hvalue, ↓reduceIte, hrest, List.length_cons]
      -- the low bits and the rest make up the number
      have hsplit : v % 128 * 2 ^ shift + v / 128 * 2 ^ (shift + 7) = v * 2 ^ shift := by
        rw [hpow, ← mul_assoc, ← add_mul, Nat.mod_add_div' v 128]
      rw [Nat.add_assoc value, hsplit, Nat.add_assoc offset, Nat.add_comm 1]

/-- `varint` reads an encoded number of at most 35 bits. -/
theorem varint_encode {v : ℕ} (hv : v < 2 ^ 35) (h : At data offset stop (encode v)) :
    Decoder.varint data stop offset = .ok (v, offset + (encode v).length) := by
  have hbound : v < 128 ^ (4 + 1) := hv.trans_le (by norm_num)
  have hread : Decoder.varintFrom data stop (List.range' 0 (4 + 1) 7) 0 offset =
      .ok (0 + v * 2 ^ 0, offset + (encode v).length) := varintFrom_encode (by decide) hbound h
  rw [Nat.zero_add, pow_zero, Nat.mul_one] at hread
  exact hread

/-! ## Rows -/

/-- The pixels that run lengths stand for. -/
def expand : Bool → List ℕ → List Bool
  | _, [] => []
  | colour, run :: runs => List.replicate run colour ++ expand (!colour) runs

/-- The maximal runs of a row, from the colour of its first pixel. -/
theorem expand_findRuns (pixels : List Bool) :
    expand (pixels.headD false) (Encoder.findRuns pixels) = pixels := by
  -- one case for each equation of `findRuns`
  fun_induction Encoder.findRuns pixels with
  | case1 => rfl
  | case2 pixel => rfl
  | case3 a b rest heq ih =>
    rw [heq] at ih
    cases ih
  | case4 b rest n runs heq ih =>
    rw [heq] at ih
    simp only [List.headD_cons, expand] at ih ⊢
    rw [List.replicate_succ, List.cons_append, ih]
  | case5 a b rest n runs heq hne ih =>
    rw [heq] at ih
    have hflip : (!a) = b := by
      cases a <;> cases b <;> simp_all
    simp only [List.headD_cons, expand] at ih ⊢
    rw [hflip, List.replicate_one, List.singleton_append]
    congr 1

/-- Decoding the runs of a row from black gives the row. -/
theorem expand_rowRuns (pixels : List Bool) : expand false (Encoder.rowRuns pixels) = pixels := by
  have hruns := expand_findRuns pixels
  unfold Encoder.rowRuns
  cases pixels with
  | nil => exact hruns
  | cons pixel rest =>
    cases pixel with
    | false => exact hruns
    | true => exact hruns

theorem length_expand (colour : Bool) (runs : List ℕ) : (expand colour runs).length = runs.sum := by
  induction runs generalizing colour with
  | nil => rfl
  | cons run runs ih => rw [expand, List.length_append, List.length_replicate, ih, List.sum_cons]

/-- The runs of a row add up to its length. -/
theorem sum_rowRuns (pixels : List Bool) : (Encoder.rowRuns pixels).sum = pixels.length := by
  rw [← length_expand false, expand_rowRuns]

theorem length_findRuns_le (pixels : List Bool) :
    (Encoder.findRuns pixels).length ≤ pixels.length := by
  fun_induction Encoder.findRuns pixels with
  | case1 => simp
  | case2 pixel => simp
  | case3 a b rest heq ih => simp
  | case4 b rest n runs heq ih =>
    rw [heq] at ih
    simp only [List.length_cons] at ih ⊢
    omega
  | case5 a b rest n runs heq hne ih =>
    rw [heq] at ih
    simp only [List.length_cons] at ih ⊢
    omega

theorem length_rowRuns_le (pixels : List Bool) :
    (Encoder.rowRuns pixels).length ≤ pixels.length + 1 := by
  have hle := length_findRuns_le pixels
  unfold Encoder.rowRuns
  simp only
  split_ifs
  · rw [List.length_cons]
    omega
  · omega

/-- The pixels with those from a position on overwritten. -/
def overwrite (pixels : List Bool) (position : ℕ) (values : List Bool) : List Bool :=
  pixels.mapIdx fun i pixel => if position ≤ i then values.getD (i - position) pixel else pixel

theorem overwrite_nil (pixels : List Bool) (position : ℕ) : overwrite pixels position [] = pixels := by
  refine List.ext_getElem? fun i => ?_
  simp [overwrite]

/-- Filling a run and overwriting behind it. -/
theorem overwrite_fill (pixels values : List Bool) (position run : ℕ) (colour : Bool) :
    overwrite (Decoder.fill pixels position (position + run) colour) (position + run) values =
      overwrite pixels position (List.replicate run colour ++ values) := by
  refine List.ext_getElem? fun i => ?_
  simp only [overwrite, Decoder.fill, List.getElem?_mapIdx, Option.map_map]
  congr 1
  funext pixel
  simp only [Function.comp_apply, List.getD_eq_getElem?_getD, List.getElem?_append,
    List.length_replicate, List.getElem?_replicate]
  -- before the position, in the run, or behind it
  by_cases hbefore : position ≤ i
  · by_cases hin : i < position + run
    · have hlt : i - position < run := by omega
      have hnot : ¬position + run ≤ i := by omega
      simp [hbefore, hin, hlt, hnot]
    · have hge : ¬i - position < run := by omega
      have hle : position + run ≤ i := by omega
      have hsub : i - position - run = i - (position + run) := by omega
      simp [hbefore, hin, hge, hle, hsub]
  · have hnot : ¬position + run ≤ i := by omega
    simp [hbefore, hnot]

/-- The loop over the runs of a row writes the pixels they stand for. -/
theorem decodeRuns_encode {width y x : ℕ} {colour : Bool} {runs : List ℕ} {pixels : List Bool}
    (hruns : ∀ run ∈ runs, run < 2 ^ 35) (hwidth : x + runs.sum ≤ width)
    (h : At data offset stop (runs.flatMap encode)) :
    Decoder.decodeRuns data stop width y runs.length x colour offset pixels =
      .ok (x + runs.sum, offset + (runs.flatMap encode).length,
        overwrite pixels (y * width + x) (expand colour runs)) := by
  induction runs generalizing x colour offset pixels with
  | nil => simp [Decoder.decodeRuns, expand, overwrite_nil]
  | cons run runs ih =>
    rw [List.flatMap_cons] at h
    rw [List.sum_cons] at hwidth
    have hread := varint_encode (hruns run List.mem_cons_self) h.left
    have hfits : x + run ≤ width := by omega
    have hsum : x + run + runs.sum ≤ width := by omega
    rw [List.length_cons, Decoder.decodeRuns, hread]
    simp only [bind, Except.bind, hfits, ↓reduceIte]
    rw [ih (fun r hr => hruns r (List.mem_cons_of_mem _ hr)) hsum h.right]
    rw [List.sum_cons, List.flatMap_cons, List.length_append, expand, Nat.add_assoc x,
      Nat.add_assoc offset, ← Nat.add_assoc (y * width), overwrite_fill]

/-- The bytes of the changed rows; `next` is the row behind the last one that was written. -/
def rowBytes (width : ℕ) (bits : List Bool) : ℕ → List ℕ → List UInt8
  | _, [] => []
  | next, y :: ys =>
    let runs := Encoder.rowRuns (row width bits y)
    encode (y - next) ++ (encode runs.length ++ (runs.flatMap encode ++
      rowBytes width bits (y + 1) ys))

theorem length_row {width height y : ℕ} {bits : List Bool} (hbits : bits.length = width * height)
    (hy : y < height) : (row width bits y).length = width := by
  have hrow : (y + 1) * width ≤ height * width := Nat.mul_le_mul_right width hy
  rw [Nat.add_mul, Nat.one_mul, Nat.mul_comm height] at hrow
  rw [row, List.length_take, List.length_drop, hbits]
  omega

/-- The rows of a frame are small enough for the numbers of the format. -/
theorem run_lt {width height y run : ℕ} {bits : List Bool} (hbits : bits.length = width * height)
    (hy : y < height) (hwidth : width < 2 ^ 16) (hrun : run ∈ Encoder.rowRuns (row width bits y)) :
    run < 2 ^ 16 := by
  have hle := List.single_le_sum (fun _ _ => Nat.zero_le _) run hrun
  rw [sum_rowRuns, length_row hbits hy] at hle
  omega

/-- The loop over the changed rows writes them and reports them. -/
theorem decodeRows_encode {width height next index y : ℕ} {bits pixels : List Bool} {ys changed : List ℕ}
    (hwidth : width < 2 ^ 16) (hheight : height < 2 ^ 16) (hbits : bits.length = width * height)
    (hnext : next = if index = 0 then 0 else y + 1) (hys : ys.Pairwise (· < ·))
    (hrange : ∀ y ∈ ys, next ≤ y ∧ y < height) (h : At data offset stop (rowBytes width bits next ys)) :
    Decoder.decodeRows data stop width height ys.length index y offset pixels changed =
      .ok (offset + (rowBytes width bits next ys).length,
        ys.foldl (fun pixels y => overwrite pixels (y * width) (row width bits y)) pixels,
        changed ++ ys) := by
  -- induction on the rows that are left
  induction ys generalizing next index y offset pixels changed with
  | nil => simp [Decoder.decodeRows, rowBytes]
  | cons y' ys ih =>
    obtain ⟨hge, hlt⟩ := hrange y' List.mem_cons_self
    obtain ⟨hfirst, hys⟩ := List.pairwise_cons.mp hys
    rw [rowBytes] at h ⊢
    set runs := Encoder.rowRuns (row width bits y') with hruns
    have hcount : runs.length < 2 ^ 35 := by
      have hle := length_rowRuns_le (row width bits y')
      rw [length_row hbits hlt, ← hruns] at hle
      omega
    have hsum : 0 + runs.sum = width := by
      rw [hruns, sum_rowRuns, length_row hbits hlt, Nat.zero_add]
    have hgap := varint_encode (show y' - next < 2 ^ 35 by omega) h.left
    have hlength := varint_encode hcount h.right.left
    have hsmallRuns : ∀ run ∈ runs, run < 2 ^ 35 := fun run hrun =>
      (run_lt hbits hlt hwidth hrun).trans (by decide)
    -- the row that the gap leads to
    have hy : (if index = 0 then y' - next else y + 1 + (y' - next)) = y' := by
      split_ifs at hnext ⊢ <;> omega
    have hsmall : y' % 2 ^ 16 = y' := Nat.mod_eq_of_lt (hlt.trans hheight)
    have hexpand : expand false runs = row width bits y' := expand_rowRuns _
    have hbehind : y' + 1 = if index + 1 = 0 then 0 else y' + 1 := by simp
    rw [List.length_cons, Decoder.decodeRows, hgap]
    simp only [bind, Except.bind, hy, ge_iff_le, not_le.mpr hlt, ↓reduceIte, hlength]
    rw [decodeRuns_encode hsmallRuns hsum.le h.right.right.left]
    simp only [hsum, ne_eq, not_true_eq_false, ↓reduceIte, hsmall, hexpand, Nat.add_zero]
    rw [ih hbehind hys (fun y hy => ⟨hfirst y hy, (hrange y (List.mem_cons_of_mem _ hy)).2⟩)
      h.right.right.right]
    simp only [List.length_append, List.foldl_cons, List.append_assoc, List.singleton_append,
      Nat.add_assoc]

/-! ## Frames -/

variable {width height : ℕ} {prev bits : List Bool}

/-- The rows in which two frames differ, from the top. -/
def changedRows (width height : ℕ) (prev bits : List Bool) : List ℕ :=
  (List.range height).filter fun y => row width bits y ≠ row width prev y

/-- The bytes of a frame. -/
def frameBytes (width height : ℕ) (prev bits : List Bool) : List UInt8 :=
  let ys := changedRows width height prev bits
  let payload := encode ys.length ++ rowBytes width bits 0 ys
  encode payload.length ++ payload

/-- The loop of `add` writes the changed rows of the rows that are left. -/
theorem addRows_eq (hbits : bits.length = width * height) {k n next : ℕ} {s : Encoder.Rows}
    (hrange : k + n ≤ height) (hlast : s.last = (next : ℤ) - 1) (hnext : next ≤ k)
    (hprev : ∀ y, k ≤ y → y < height → s.previous y = row width prev y) :
    ∃ s', (List.range' k n).foldlM (Encoder.addRow width bits) s = some s' ∧
      s'.body = s.body ++ rowBytes width bits next
        ((List.range' k n).filter fun y => row width bits y ≠ row width prev y) ∧
      s'.changed = s.changed +
        ((List.range' k n).filter fun y => row width bits y ≠ row width prev y).length ∧
      (∀ y, k ≤ y → y < k + n → s'.previous y = row width bits y) ∧
      ∀ y, y < k → s'.previous y = s.previous y := by
  -- induction on the number of rows that are left
  induction n generalizing k next s with
  | zero => exact ⟨s, rfl, by simp [rowBytes], by simp, fun y h1 h2 => by omega, fun y _ => rfl⟩
  | succ n ih =>
    have hk : s.previous k = row width prev k := hprev k le_rfl (by omega)
    rw [List.range'_succ, List.foldlM_cons]
    by_cases hsame : row width bits k = row width prev k
    · -- the row is as it was
      have hround : Encoder.addRow width bits s k = some s := by
        rw [Encoder.addRow, if_pos (hsame.trans hk.symm)]
      obtain ⟨s', hrun, hbody, hchanged, hafter, hbefore⟩ := ih (k := k + 1) (by omega) hlast
        (by omega) fun y h1 h2 => hprev y (by omega) h2
      refine ⟨s', by rw [hround]; exact hrun, ?_, ?_, fun y h1 h2 => ?_, fun y hy => ?_⟩
      · rw [hbody, List.filter_cons_of_neg (by simpa using hsame)]
      · rw [hchanged, List.filter_cons_of_neg (by simpa using hsame)]
      · rcases Nat.eq_or_lt_of_le h1 with rfl | hlt
        · rw [hbefore _ (Nat.lt_succ_self _), hk, hsame]
        · exact hafter y hlt (by omega)
      · exact hbefore y (by omega)
    · have hsum : (Encoder.rowRuns (row width bits k)).sum = width := by
        rw [sum_rowRuns, length_row hbits (by omega)]
      have hgap : ((k : ℤ) - s.last - 1).toNat = k - next := by omega
      set s₁ : Encoder.Rows := {
        previous := Function.update s.previous k (row width bits k)
        body := s.body ++ encode (k - next) ++ encode (Encoder.rowRuns (row width bits k)).length ++
          (Encoder.rowRuns (row width bits k)).flatMap encode
        changed := s.changed + 1
        last := k } with hs₁
      have hround : Encoder.addRow width bits s k = some s₁ := by
        rw [Encoder.addRow, if_neg (fun heq => hsame (heq.trans hk))]
        simp only [hsum, ↓reduceIte, hgap, hs₁]
      have hprev₁ : ∀ y, k + 1 ≤ y → y < height → s₁.previous y = row width prev y := fun y h1 h2 =>
        (Function.update_of_ne (show y ≠ k by omega) ..).trans (hprev y (by omega) h2)
      have hlast₁ : s₁.last = ((k + 1 : ℕ) : ℤ) - 1 := by
        change (k : ℤ) = _
        omega
      obtain ⟨s', hrun, hbody, hchanged, hafter, hbefore⟩ := ih (by omega) hlast₁ le_rfl hprev₁
      refine ⟨s', by rw [hround]; exact hrun, ?_, ?_, fun y h1 h2 => ?_, fun y hy => ?_⟩
      · rw [hbody, List.filter_cons_of_pos (by simpa using hsame), rowBytes]
        simp only [hs₁, List.append_assoc]
      · rw [hchanged, List.filter_cons_of_pos (by simpa using hsame), List.length_cons, hs₁]
        dsimp only
        omega
      · rcases Nat.eq_or_lt_of_le h1 with rfl | hlt
        · exact (hbefore _ (Nat.lt_succ_self _)).trans (Function.update_self ..)
        · exact hafter y hlt (by omega)
      · exact (hbefore y (by omega)).trans (Function.update_of_ne (show y ≠ k by omega) ..)

/-- `add` writes the bytes of the frame. -/
theorem add_eq {e : Encoder} (hbits : bits.length = e.width * e.height)
    (hprev : ∀ y < e.height, e.previous y = row e.width prev y) :
    ∃ previous, (∀ y < e.height, previous y = row e.width bits y) ∧
      e.add bits = some { e with
        previous
        file := e.file ++ frameBytes e.width e.height prev bits
        frames := e.frames + 1 } := by
  have hstart : ({ previous := e.previous } : Encoder.Rows).last = ((0 : ℕ) : ℤ) - 1 := rfl
  obtain ⟨s', hrun, hbody, hchanged, hafter, -⟩ := addRows_eq hbits (k := 0) (n := e.height)
    (by omega) hstart le_rfl fun y _ hy => hprev y hy
  rw [← List.range_eq_range'] at hrun hbody hchanged
  rw [List.nil_append] at hbody
  rw [Nat.zero_add] at hchanged
  refine ⟨s'.previous, fun y hy => hafter y (Nat.zero_le y) (by omega), ?_⟩
  rw [Encoder.add, if_neg (not_not.mpr hbits), hrun]
  simp only [bind, Option.bind, pure, hbody, hchanged, frameBytes, changedRows, List.append_assoc]

/-- A few bytes for each number of a row, of which there are at most `width + 3`. -/
theorem length_rowBytes_le (hwidth : width < 2 ^ 16) (hheight : height < 2 ^ 16)
    (hbits : bits.length = width * height) {ys : List ℕ} (hys : ∀ y ∈ ys, y < height) (next : ℕ) :
    (rowBytes width bits next ys).length ≤ ys.length * (3 * width + 9) := by
  have hthree : ∀ v < 2 ^ 16 + 1, (encode v).length ≤ 3 := fun v hv =>
    length_encode_le (k := 2) (by omega)
  induction ys generalizing next with
  | nil => simp [rowBytes]
  | cons y ys ih =>
    have hy := hys y List.mem_cons_self
    have hcount := length_rowRuns_le (row width bits y)
    rw [length_row hbits hy] at hcount
    -- the runs of the row
    have hruns : ((Encoder.rowRuns (row width bits y)).flatMap encode).length ≤
        (Encoder.rowRuns (row width bits y)).length * 3 := by
      rw [List.length_flatMap]
      refine (List.sum_le_card_nsmul _ 3 fun n hn => ?_).trans (by simp)
      obtain ⟨run, hrun, rfl⟩ := List.mem_map.mp hn
      have hlt := run_lt hbits hy hwidth hrun
      exact hthree run (by omega)
    have hgap := hthree (y - next) (by omega)
    have hlen := hthree (Encoder.rowRuns (row width bits y)).length (by omega)
    have hrest := ih (fun y' hy' => hys y' (List.mem_cons_of_mem _ hy')) (y + 1)
    simp only [rowBytes, List.length_append, List.length_cons, Nat.add_mul, Nat.one_mul]
    omega

/-- One row of a frame, seen in the flat list of pixels. -/
theorem getElem?_overwrite_row (hwidth : 0 < width) (hbits : bits.length = width * height)
    {pixels : List Bool} (hpixels : pixels.length = width * height) (y i : ℕ) :
    (overwrite pixels (y * width) (row width bits y))[i]? =
      if i / width = y then bits[i]? else pixels[i]? := by
  have hdiv := Nat.div_add_mod' i width
  have hmod := Nat.mod_lt i hwidth
  simp only [overwrite, List.getElem?_mapIdx, List.getD_eq_getElem?_getD, row, List.getElem?_take,
    List.getElem?_drop]
  by_cases hy : i / width = y
  · -- inside the row both lists have the pixel, or neither
    subst hy
    have hle : i / width * width ≤ i := Nat.div_mul_le_self i width
    have hlt : i - i / width * width < width := by omega
    rw [if_pos rfl]
    simp only [hle, ↓reduceIte, hlt, Nat.add_sub_cancel' hle]
    by_cases hin : i < width * height
    · have hin₁ : i < pixels.length := by omega
      have hin₂ : i < bits.length := by omega
      rw [List.getElem?_eq_getElem hin₁, List.getElem?_eq_getElem hin₂]
      rfl
    · rw [List.getElem?_eq_none (by omega), List.getElem?_eq_none (by omega)]
      rfl
  · rw [if_neg hy]
    -- before the row, or behind it
    by_cases hle : y * width ≤ i
    · have hge : ¬i - y * width < width := by
        intro hlt
        refine hy (Nat.div_eq_of_lt_le hle ?_)
        rw [Nat.add_mul, Nat.one_mul]
        omega
      simp [hle, hge]
    · simp [hle]

/-- Writing rows of a frame over the pixels. -/
theorem getElem?_foldl_overwrite (hwidth : 0 < width) (hbits : bits.length = width * height)
    {pixels : List Bool} (hpixels : pixels.length = width * height) (ys : List ℕ) (i : ℕ) :
    (ys.foldl (fun pixels y => overwrite pixels (y * width) (row width bits y)) pixels)[i]? =
      if i / width ∈ ys then bits[i]? else pixels[i]? := by
  induction ys generalizing pixels with
  | nil => simp
  | cons y ys ih =>
    have hlength : (overwrite pixels (y * width) (row width bits y)).length = width * height := by
      rw [overwrite, List.length_mapIdx, hpixels]
    rw [List.foldl_cons, ih hlength, getElem?_overwrite_row hwidth hbits hpixels]
    by_cases hmem : i / width ∈ ys
    · rw [if_pos hmem, if_pos (List.mem_cons_of_mem _ hmem)]
    · rw [if_neg hmem]
      simp only [List.mem_cons, hmem, or_false]

/-- Rows that are equal have equal pixels. -/
theorem getElem?_of_row_eq (hwidth : 0 < width) {i : ℕ}
    (h : row width bits (i / width) = row width prev (i / width)) : bits[i]? = prev[i]? := by
  have hdiv := Nat.div_add_mod' i width
  have hmod := Nat.mod_lt i hwidth
  have hget := congrArg (fun pixels => pixels[i % width]?) h
  simp only [row, List.getElem?_take, hmod, ↓reduceIte, List.getElem?_drop, hdiv] at hget
  exact hget

/-- Writing the changed rows over the previous frame gives the frame. -/
theorem overwrite_changedRows (hwidth : 0 < width) (hbits : bits.length = width * height)
    (hprev : prev.length = width * height) :
    (changedRows width height prev bits).foldl
      (fun pixels y => overwrite pixels (y * width) (row width bits y)) prev = bits := by
  refine List.ext_getElem? fun i => ?_
  rw [getElem?_foldl_overwrite hwidth hbits hprev]
  split_ifs with hmem
  · rfl
  · by_cases hin : i < width * height
    · -- a row that is not written did not change
      have hrow : i / width < height := Nat.div_lt_of_lt_mul hin
      have hsame : row width bits (i / width) = row width prev (i / width) := by
        by_contra hne
        exact hmem (List.mem_filter.mpr ⟨List.mem_range.mpr hrow, by simpa using hne⟩)
      exact (getElem?_of_row_eq hwidth hsame).symm
    · rw [List.getElem?_eq_none (by omega), List.getElem?_eq_none (by omega)]

/-- The decoder applies the bytes of a frame and reports the changed rows. -/
theorem nextFrame_eq {d : Decoder} (hwidth : 0 < d.header.width) (hwidth' : d.header.width < 2 ^ 16)
    (hheight : d.header.height < 2 ^ 16) (hmore : d.decoded ≠ d.header.frames)
    (hbits : bits.length = d.header.width * d.header.height)
    (hpixels : d.pixels.length = d.header.width * d.header.height)
    (h : At d.data d.offset d.data.length
      (frameBytes d.header.width d.header.height d.pixels bits)) :
    d.nextFrame = .ok (true, changedRows d.header.width d.header.height d.pixels bits, { d with
      offset := d.offset + (frameBytes d.header.width d.header.height d.pixels bits).length
      pixels := bits
      decoded := d.decoded + 1 }) := by
  set ys := changedRows d.header.width d.header.height d.pixels bits with hys
  set payload := encode ys.length ++ rowBytes d.header.width bits 0 ys with hpayload
  have hframe : frameBytes d.header.width d.header.height d.pixels bits =
      encode payload.length ++ payload := rfl
  rw [hframe] at h ⊢
  have hrows : ∀ y ∈ ys, y < d.header.height := fun y hy =>
    List.mem_range.mp (List.mem_filter.mp hy).1
  have hordered : ys.Pairwise (· < ·) := List.pairwise_lt_range.filter _
  have hcount : ys.length ≤ d.header.height := by
    rw [hys, changedRows]
    refine (List.length_filter_le _ _).trans ?_
    rw [List.length_range]
  -- the length of a frame is a number of at most 35 bits
  have hlength : payload.length < 2 ^ 35 := by
    have hbytes := length_rowBytes_le hwidth' hheight hbits hrows 0
    have hencode : (encode ys.length).length ≤ 3 := length_encode_le (k := 2) (by omega)
    have hproduct : ys.length * (3 * d.header.width + 9) ≤ 2 ^ 16 * (3 * 2 ^ 16 + 9) :=
      Nat.mul_le_mul (by omega) (by omega)
    rw [hpayload, List.length_append]
    omega
  have hbefore := h.right.before
  have hread := varint_encode hlength h.left
  -- the frame ends where its length says
  have hinside : At d.data (d.offset + (encode payload.length).length)
      (d.offset + (encode payload.length).length + payload.length) payload :=
    ⟨h.right.isPrefix, le_rfl⟩
  rw [hpayload] at hinside
  have hrowCount := varint_encode (show ys.length < 2 ^ 35 by omega) hinside.left
  have hdecoded : Decoder.decodeRows d.data _ d.header.width d.header.height ys.length 0 0 _
      d.pixels [] = _ := decodeRows_encode hwidth' hheight hbits rfl hordered
    (fun y hy => ⟨Nat.zero_le y, hrows y hy⟩) hinside.right
  rw [Decoder.nextFrame, if_neg hmore, hread]
  simp only [bind, Except.bind, hbefore, ↓reduceIte]
  rw [hpayload, hrowCount]
  simp only
  rw [hdecoded]
  simp only [List.nil_append, List.length_append, Nat.add_assoc, ne_eq, not_true_eq_false,
    ↓reduceIte, hys, overwrite_changedRows hwidth hbits hpixels]

/-! ## Videos -/

/-- The bytes of the frames, each after the one before. -/
def videoBytes (width height : ℕ) : List Bool → List (List Bool) → List UInt8
  | _, [] => []
  | prev, bits :: frames => frameBytes width height prev bits ++ videoBytes width height bits frames

/-- What a player should see: every frame, with the rows that differ from the frame before. -/
def shown (width height : ℕ) : List Bool → List (List Bool) → List (List Bool × List ℕ)
  | _, [] => []
  | prev, bits :: frames => (bits, changedRows width height prev bits) :: shown width height bits frames

/-- The encoder accepts frames of the right size and writes their bytes. -/
theorem foldlM_add {e e' : Encoder} {frames : List (List Bool)}
    (hprev : ∀ y < e.height, e.previous y = row e.width prev y)
    (hrun : frames.foldlM Encoder.add e = some e') :
    (∀ bits ∈ frames, bits.length = e.width * e.height) ∧
      e'.width = e.width ∧ e'.height = e.height ∧ e'.fpsNum = e.fpsNum ∧ e'.fpsDen = e.fpsDen ∧
      e'.frames = e.frames + frames.length ∧
      e'.file = e.file ++ videoBytes e.width e.height prev frames := by
  induction frames generalizing e prev with
  | nil =>
    cases hrun
    simp [videoBytes]
  | cons bits frames ih =>
    rw [List.foldlM_cons] at hrun
    obtain ⟨e₁, hadd, hrest⟩ := Option.bind_eq_some_iff.mp hrun
    have hbits : bits.length = e.width * e.height := by
      by_contra hne
      rw [Encoder.add, if_pos hne] at hadd
      cases hadd
    obtain ⟨previous, hprev₁, heq⟩ := add_eq hbits hprev
    rw [heq] at hadd
    cases hadd
    obtain ⟨hall, h₁, h₂, h₃, h₄, hframes, hfile⟩ := ih hprev₁ hrest
    refine ⟨fun b hb => ?_, h₁, h₂, h₃, h₄, ?_, ?_⟩
    · rcases List.mem_cons.mp hb with rfl | hb
      · exact hbits
      · exact hall b hb
    · rw [hframes, List.length_cons]
      dsimp only
      omega
    · rw [hfile, videoBytes, List.append_assoc]

/-- The decoder plays the bytes of the frames to the end. -/
theorem plays_videoBytes {d : Decoder} {frames : List (List Bool)} (hwidth : 0 < d.header.width)
    (hwidth' : d.header.width < 2 ^ 16) (hheight : d.header.height < 2 ^ 16)
    (hcount : d.decoded + frames.length = d.header.frames)
    (hframes : ∀ bits ∈ frames, bits.length = d.header.width * d.header.height)
    (hpixels : d.pixels.length = d.header.width * d.header.height)
    (h : At d.data d.offset d.data.length
      (videoBytes d.header.width d.header.height d.pixels frames)) :
    d.Plays (shown d.header.width d.header.height d.pixels frames) := by
  induction frames generalizing d with
  | nil =>
    refine .done ?_
    rw [Decoder.nextFrame, if_pos (by simpa using hcount)]
  | cons bits frames ih =>
    have hbits := hframes bits List.mem_cons_self
    rw [List.length_cons] at hcount
    rw [videoBytes] at h
    refine .next (nextFrame_eq hwidth hwidth' hheight (by omega) hbits hpixels h.left) ?_
    exact ih hwidth hwidth' hheight (by dsimp only; omega)
      (fun b hb => hframes b (List.mem_cons_of_mem _ hb)) hbits h.right

theorem packU16_eq_some {value : ℕ} {bytes : List UInt8} (h : Encoder.packU16 value = some bytes) :
    value < 2 ^ 16 ∧ ∃ lo hi : UInt8, bytes = [lo, hi] ∧ lo.toNat + hi.toNat * 2 ^ 8 = value := by
  unfold Encoder.packU16 at h
  split_ifs at h with hlt
  cases h
  refine ⟨hlt, _, _, rfl, ?_⟩
  rw [UInt8.toNat_ofNat', UInt8.toNat_ofNat', Nat.shiftRight_eq_div_pow]
  omega

theorem packU32_eq_some {value : ℕ} {bytes : List UInt8} (h : Encoder.packU32 value = some bytes) :
    ∃ b₀ b₁ b₂ b₃ : UInt8, bytes = [b₀, b₁, b₂, b₃] ∧
      b₀.toNat + b₁.toNat * 2 ^ 8 + (b₂.toNat + b₃.toNat * 2 ^ 8) * 2 ^ 16 = value := by
  unfold Encoder.packU32 at h
  split_ifs at h with hlt
  cases h
  refine ⟨_, _, _, _, rfl, ?_⟩
  simp only [UInt8.toNat_ofNat', Nat.shiftRight_eq_div_pow]
  omega

/-- The header is read back, whatever follows it. -/
theorem parseHeader_header {e : Encoder} {frames : ℕ} {bytes : List UInt8}
    (h : e.header frames = some bytes) (rest : List UInt8) (hwidth : 1 ≤ e.width) (hheight : 1 ≤ e.height)
    (hnum : 1 ≤ e.fpsNum) (hden : 1 ≤ e.fpsDen) :
    e.width < 2 ^ 16 ∧ e.height < 2 ^ 16 ∧ bytes.length = headerBytes ∧
      parseHeader (bytes ++ rest) = .ok {
        width := e.width
        height := e.height
        fpsNumerator := e.fpsNum
        fpsDenominator := e.fpsDen
        frames } := by
  unfold Encoder.header at h
  simp only [bind, Option.bind_eq_some_iff, pure, Option.some.injEq] at h
  obtain ⟨w, hw, h', hh, n, hn, d, hd, f, hf, rfl⟩ := h
  obtain ⟨hwlt, w₀, w₁, rfl, hwidthBytes⟩ := packU16_eq_some hw
  obtain ⟨hhlt, h₀, h₁, rfl, hheightBytes⟩ := packU16_eq_some hh
  obtain ⟨-, n₀, n₁, rfl, hnumBytes⟩ := packU16_eq_some hn
  obtain ⟨-, d₀, d₁, rfl, hdenBytes⟩ := packU16_eq_some hd
  obtain ⟨f₀, f₁, f₂, f₃, rfl, hframeBytes⟩ := packU32_eq_some hf
  refine ⟨hwlt, hhlt, rfl, ?_⟩
  -- sixteen bytes at fixed places
  have hlength : ¬(Encoder.magic ++ [w₀, w₁] ++ [h₀, h₁] ++ [n₀, n₁] ++ [d₀, d₁] ++ [f₀, f₁, f₂, f₃] ++
      rest).length < headerBytes := by
    simp only [List.length_append, headerBytes, Encoder.magic, List.length_cons, List.length_nil]
    omega
  have hmagic : ((Encoder.magic ++ [w₀, w₁] ++ [h₀, h₁] ++ [n₀, n₁] ++ [d₀, d₁] ++ [f₀, f₁, f₂, f₃] ++
      rest).take 4 != Encoder.magic) = false := by
    simp [Encoder.magic]
  have hfields : ¬(e.width = 0 ∨ e.height = 0 ∨ e.fpsNum = 0 ∨ e.fpsDen = 0) := by omega
  rw [parseHeader, hmagic, Bool.or_false, if_neg (by simpa using hlength)]
  simp only [u16At, u32At, Encoder.magic, List.cons_append, List.nil_append, List.getD_cons_zero,
    List.getD_cons_succ, hwidthBytes, hheightBytes, hnumBytes, hdenBytes, hframeBytes, hfields,
    ↓reduceIte]

/-- A row of a black frame. -/
theorem row_black {y : ℕ} (hy : y < height) :
    row width (List.replicate (width * height) false) y = List.replicate width false := by
  have hrow : (y + 1) * width ≤ height * width := Nat.mul_le_mul_right width hy
  rw [Nat.add_mul, Nat.one_mul, Nat.mul_comm height] at hrow
  rw [row, List.drop_replicate, List.take_replicate, Nat.min_eq_left (by omega)]

/-- A video that the encoder writes is accepted by the decoder, which reproduces every frame in order
and reports the rows that differ from the frame before; before the first everything is black. -/
theorem plays_encode {width height fpsNum fpsDen : ℕ} {frames : List (List Bool)}
    {data : List UInt8} (hwidth : 1 ≤ width) (hheight : 1 ≤ height) (hnum : 1 ≤ fpsNum)
    (hden : 1 ≤ fpsDen) (hencode : Encoder.encode width height fpsNum fpsDen frames = some data) :
    ∃ d, Decoder.new data = .ok d ∧
      d.Plays (shown width height (List.replicate (width * height) false) frames) := by
  unfold Encoder.encode at hencode
  simp only [bind, Option.bind_eq_some_iff, Encoder.finish, pure, Option.some.injEq] at hencode
  obtain ⟨-, -, e, hadd, bytes, hheader, rfl⟩ := hencode
  obtain ⟨hall, hw, hh, hn, hd, hframes, hfile⟩ :=
    foldlM_add (fun y hy => (row_black hy).symm) hadd
  simp only [Encoder.init, Nat.zero_add, List.nil_append] at hall hw hh hn hd hframes hfile
  obtain ⟨hwlt, hhlt, hlength, hparse⟩ := parseHeader_header hheader e.file (hw ▸ hwidth)
    (hh ▸ hheight) (hn ▸ hnum) (hd ▸ hden)
  rw [hw, hh, hn, hd] at hparse
  rw [hw] at hwlt
  rw [hh] at hhlt
  refine ⟨_, by rw [Decoder.new, hparse]; rfl, ?_⟩
  refine plays_videoBytes hwidth hwlt hhlt ?_ hall List.length_replicate ⟨?_, ?_⟩
  · rw [hframes, Nat.zero_add]
  · -- the frames start behind the header
    dsimp only
    rw [← hlength, List.drop_left]
    exact hfile ▸ List.prefix_rfl
  · dsimp only
    rw [← hlength, List.length_append, hfile]

theorem header_isSome {e : Encoder} {frames : ℕ} (hwidth : e.width < 2 ^ 16)
    (hheight : e.height < 2 ^ 16) (hnum : e.fpsNum < 2 ^ 16) (hden : e.fpsDen < 2 ^ 16)
    (hframes : frames < 2 ^ 32) : ∃ bytes, e.header frames = some bytes := by
  simp only [Encoder.header, Encoder.packU16, Encoder.packU32, hwidth, hheight, hnum, hden, hframes,
    ↓reduceIte, bind, Option.bind, pure]
  exact ⟨_, rfl⟩

/-- The encoder accepts frames of the given size. -/
theorem foldlM_add_isSome {e : Encoder} {frames : List (List Bool)}
    (hframes : ∀ bits ∈ frames, bits.length = e.width * e.height)
    (hprev : ∀ y < e.height, e.previous y = row e.width prev y) :
    ∃ e', frames.foldlM Encoder.add e = some e' := by
  induction frames generalizing e prev with
  | nil => exact ⟨e, rfl⟩
  | cons bits frames ih =>
    obtain ⟨previous, hprev₁, heq⟩ := add_eq (hframes bits List.mem_cons_self) hprev
    rw [List.foldlM_cons, heq]
    exact ih (fun b hb => hframes b (List.mem_cons_of_mem _ hb)) hprev₁

/-- The encoder writes a video if its sizes fit the header and its frames have the given size. -/
theorem encode_isSome {width height fpsNum fpsDen : ℕ} {frames : List (List Bool)}
    (hwidth : width < 2 ^ 16) (hheight : height < 2 ^ 16) (hnum : fpsNum < 2 ^ 16)
    (hden : fpsDen < 2 ^ 16) (hcount : frames.length < 2 ^ 32)
    (hframes : ∀ bits ∈ frames, bits.length = width * height) :
    ∃ data, Encoder.encode width height fpsNum fpsDen frames = some data := by
  have hblack : ∀ y < height, (Encoder.init width height fpsNum fpsDen).previous y =
      row width (List.replicate (width * height) false) y := fun y hy => (row_black hy).symm
  obtain ⟨e, hrun⟩ : ∃ e, frames.foldlM Encoder.add (Encoder.init width height fpsNum fpsDen) =
      some e := foldlM_add_isSome hframes hblack
  obtain ⟨-, hw, hh, hn, hd, hlength, -⟩ := foldlM_add hblack hrun
  simp only [Encoder.init, Nat.zero_add] at hw hh hn hd hlength
  obtain ⟨first, hfirst⟩ := header_isSome (e := Encoder.init width height fpsNum fpsDen) hwidth hheight
    hnum hden (Nat.two_pow_pos 32)
  obtain ⟨bytes, hlast⟩ := header_isSome (e := e) (hw ▸ hwidth) (hh ▸ hheight) (hn ▸ hnum) (hd ▸ hden)
    (hlength ▸ hcount)
  refine ⟨bytes ++ e.file, ?_⟩
  simp only [Encoder.encode, bind, hfirst, Option.bind, hrun, Encoder.finish, hlast, pure]

/-- Two frames of nine pixels, of which the second changes the lower row only. -/
theorem plays_encode_nine : ∃ data d,
    Encoder.encode 9 2 24 1 [List.replicate 18 true, List.replicate 9 true ++ List.replicate 9 false]
      = some data ∧ Decoder.new data = .ok d ∧
    d.Plays [(List.replicate 18 true, [0, 1]),
      (List.replicate 9 true ++ List.replicate 9 false, [1])] := by
  obtain ⟨data, hencode⟩ : ∃ data, Encoder.encode 9 2 24 1
      [List.replicate 18 true, List.replicate 9 true ++ List.replicate 9 false] = some data :=
    encode_isSome (by decide) (by decide) (by decide) (by decide) (by decide) (by decide)
  obtain ⟨d, hnew, hplays⟩ := plays_encode (by decide) (by decide) (by decide) (by decide) hencode
  exact ⟨data, d, hencode, hnew, hplays⟩

end SaeOS.Bav
