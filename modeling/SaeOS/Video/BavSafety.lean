import SaeOS.Lib.CheckedState
import SaeOS.Mm.Vma
import SaeOS.Video.BavRoundTrip

/-!
# Decoding hostile input

The decoder of `coreutils/src/bav.rs` with every index, slice and sum checked, and with the state it leaves
after an error, so that it can be called again. On any bytes it does not panic, and does what the decoder
without the checks does (`Follows`); a frame that it accepts is a list of rows with their runs, painted over
the pixels (`paint`).
-/

namespace SaeOS.Bav

open Checked (addWord mulWord index slice okOr rejectIf)

open Leb128 (payload more)

open Vma (checkedAdd)

/-! ## The decoder with its checks -/

def u16AtChecked (bytes : List UInt8) (offset : ℕ) : Checked BavError ℕ := do
  let low ← index bytes offset
  let high ← index bytes (offset + 1)
  return low.toNat + high.toNat * 2 ^ 8

def parseHeaderChecked (bytes : List UInt8) : Checked BavError Header := do
  rejectIf .notBav (bytes.length < headerBytes)
  let magic ← slice bytes 0 4
  rejectIf .notBav (magic ≠ Encoder.magic)
  let width ← u16AtChecked bytes 4
  let height ← u16AtChecked bytes 6
  let fpsNumerator ← u16AtChecked bytes 8
  let fpsDenominator ← u16AtChecked bytes 10
  let frames ← slice bytes 12 16
  rejectIf .notBav (width = 0 ∨ height = 0 ∨ fpsNumerator = 0 ∨ fpsDenominator = 0)
  return { width, height, fpsNumerator, fpsDenominator, frames := u32At frames 0 }

/-- `pixels[start..stop].fill(colour)`. -/
def fillChecked (pixels : List Bool) (start stop : ℕ) (colour : Bool) : Checked BavError (List Bool) :=
  if start ≤ stop ∧ stop ≤ pixels.length then pure (Decoder.fill pixels start stop colour)
  else Checked.panics

namespace Decoder

def newChecked (data : List UInt8) : Checked BavError Decoder := do
  let header ← parseHeaderChecked data
  let size ← mulWord header.width header.height
  return { data, offset := headerBytes, header, decoded := 0, pixels := List.replicate size false }

/-- What a decoder does with itself. -/
abbrev Play (α : Type) : Type :=
  CheckedState Decoder BavError α

/-- A checked operation on values. -/
abbrev check {α : Type} (x : Checked BavError α) : Play α :=
  CheckedState.ofChecked x

/-- The loop of `varint`, over the shifts that are left. -/
def varintLoop (stop : ℕ) : List ℕ → ℕ → Play ℕ
  | [], _ => throw .badVarint
  | shift :: shifts, value => do
    let d ← get
    let window ← check (slice d.data 0 stop)
    let byte ← check (okOr .truncated window[d.offset]?)
    let offset ← check (addWord d.offset 1)
    set { d with offset }
    let value := value ||| payload byte <<< shift
    if more byte then varintLoop stop shifts value
    -- `usize::try_from`
    else if value < 2 ^ 64 then return value
    else throw .badVarint

def varintChecked (stop : ℕ) : Play ℕ :=
  varintLoop stop [0, 7, 14, 21, 28] 0

/-- The loop over the runs of row `y`; the column reached. -/
def decodeRunsChecked (stop width y : ℕ) : ℕ → ℕ → Bool → Play ℕ
  | 0, x, _ => return x
  | runs + 1, x, colour => do
    let run ← varintChecked stop
    let next ← check (okOr .badRow ((checkedAdd x run).filter (· ≤ width)))
    let d ← get
    let line ← check (mulWord y width)
    let first ← check (addWord line x)
    let last ← check (addWord line next)
    let pixels ← check (fillChecked d.pixels first last colour)
    set { d with pixels }
    decodeRunsChecked stop width y runs next (!colour)

/-- The row after a gap. -/
def nextRow (index y gap : ℕ) : Checked BavError ℕ :=
  if index = 0 then pure gap
  else do
    let below ← addWord y 1
    addWord below gap

/-- The loop over the changed rows. -/
def decodeRowsChecked (stop width height : ℕ) : ℕ → ℕ → ℕ → List ℕ → Play (List ℕ)
  | 0, _, _, changed => return changed
  | rows + 1, index, y, changed => do
    let gap ← varintChecked stop
    let y ← check (nextRow index y gap)
    check (rejectIf .badRow (y ≥ height))
    let runs ← varintChecked stop
    let x ← decodeRunsChecked stop width y runs 0 false
    check (rejectIf .badRow (x ≠ width))
    decodeRowsChecked stop width height rows (index + 1) y (changed ++ [y % 2 ^ 16])

/-- `decoded += 1` in a `u32`. -/
def countFrame (d : Decoder) : Checked BavError Decoder :=
  if d.decoded + 1 < 2 ^ 32 then pure { d with decoded := d.decoded + 1 } else Checked.panics

/-- The part of `next_frame` that reads a frame; the rows it changed. -/
def frameRowsChecked : Play (List ℕ) := do
  let d ← get
  let length ← varintChecked d.data.length
  let d ← get
  let stop ← check (okOr .truncated ((checkedAdd d.offset length).filter (· ≤ d.data.length)))
  let rows ← varintChecked stop
  let changed ← decodeRowsChecked stop d.header.width d.header.height rows 0 0 []
  let d ← get
  check (rejectIf .badLength (d.offset ≠ stop))
  return changed

/-- Apply the next frame: whether there was one, and the rows it changed. -/
def nextFrameChecked : Play (Bool × List ℕ) := do
  let d ← get
  if d.decoded = d.header.frames then return (false, [])
  else
    let changed ← frameRowsChecked
    let d ← get
    let d ← check (countFrame d)
    set d
    return (true, changed)

/-! ## Following the decoder without checks -/

/-- What makes a decoder safe to call. -/
structure Sound (d : Decoder) : Prop where
  data_lt : d.data.length < 2 ^ 63
  offset_le : d.offset ≤ d.data.length
  width_lt : d.header.width < 2 ^ 16
  height_lt : d.header.height < 2 ^ 16
  frames_lt : d.header.frames < 2 ^ 32
  decoded_le : d.decoded ≤ d.header.frames
  pixels_length : d.pixels.length = d.header.width * d.header.height

/-- The decoder in the middle of a call. -/
structure Continues (d d' : Decoder) : Prop where
  data : d'.data = d.data
  header : d'.header = d.header
  decoded : d'.decoded = d.decoded
  length : d'.pixels.length = d.pixels.length
  offset_le : d'.offset ≤ d.data.length

variable {α β : Type} {d d' d'' : Decoder}

theorem Sound.continues (h : d.Sound) (hd : Continues d d') : d'.Sound where
  data_lt := hd.data ▸ h.data_lt
  offset_le := hd.data ▸ hd.offset_le
  width_lt := hd.header ▸ h.width_lt
  height_lt := hd.header ▸ h.height_lt
  frames_lt := hd.header ▸ h.frames_lt
  decoded_le := hd.header ▸ hd.decoded ▸ h.decoded_le
  pixels_length := hd.length.trans (hd.header ▸ h.pixels_length)

theorem Continues.refl (h : d.Sound) : Continues d d :=
  ⟨rfl, rfl, rfl, rfl, h.offset_le⟩

theorem Continues.trans (h : Continues d d') (h' : Continues d' d'') : Continues d d'' where
  data := h'.data.trans h.data
  header := h'.header.trans h.header
  decoded := h'.decoded.trans h.decoded
  length := h'.length.trans h.length
  offset_le := h.data ▸ h'.offset_le

/-- The computation does not panic, and its value, the offset and the pixels after it are as given; after
an error the decoder is in the middle of a call. -/
def Follows (x : Play α) (d : Decoder) (given : Except BavError (α × ℕ × List Bool)) : Prop :=
  x.Ends d fun r d' => Continues d d' ∧ given = r.map fun a => (a, d'.offset, d'.pixels)

variable {x : Play α} {given : Except BavError (α × ℕ × List Bool)}

theorem Follows.pure (h : d.Sound) (a : α) : Follows (pure a) d (.ok (a, d.offset, d.pixels)) :=
  CheckedState.Ends.pure ⟨.refl h, rfl⟩

theorem Follows.throw (h : d.Sound) (e : BavError) : Follows (α := α) (throw e) d (.error e) :=
  CheckedState.Ends.throw ⟨.refl h, rfl⟩

theorem Follows.bind {f : α → Play β} {g : α × ℕ × List Bool → Except BavError (β × ℕ × List Bool)}
    (hx : Follows x d given)
    (hf : ∀ a d', Continues d d' → given = .ok (a, d'.offset, d'.pixels) →
      Follows (f a) d' (g (a, d'.offset, d'.pixels))) : Follows (x >>= f) d (given >>= g) := by
  refine CheckedState.Ends.bind hx ?_ ?_
  · rintro e d' ⟨hd, rfl⟩
    exact ⟨hd, rfl⟩
  · rintro a d' ⟨hd, rfl⟩
    refine (hf a d' hd rfl).mono fun r d'' ⟨hd', heq⟩ => ⟨hd.trans hd', ?_⟩
    exact heq

/-- A checked operation that succeeds. -/
theorem Follows.lift {c : Checked BavError β} {P : β → Prop} {f : β → Play α}
    (hc : c.Safe (fun _ => False) P) (hf : ∀ b, P b → Follows (f b) d given) :
    Follows (check c >>= f) d given := by
  obtain ⟨b, hrun, hb⟩ := hc.succeeds
  refine CheckedState.Ends.bind
    (R := fun r d' => r = .ok b ∧ d' = d) ⟨.ok b, d, ?_, rfl, rfl⟩ ?_ ?_
  · exact congrArg (Option.map fun r => (r, d)) hrun
  · rintro e d' ⟨hnot, -⟩
    contradiction
  · rintro b' d' ⟨heq, rfl⟩
    obtain rfl := Except.ok.inj heq
    exact hf _ hb

/-- A check that ends the call or goes on. -/
theorem Follows.rejectIf (h : d.Sound) {e : BavError} {bad : Prop} [Decidable bad] {f : Unit → Play α}
    (hf : ¬ bad → Follows (f ()) d given) :
    Follows (check (Checked.rejectIf e bad) >>= f) d
      (if bad then .error e else given) := by
  unfold Checked.rejectIf
  split
  · exact CheckedState.Ends.bind (R := fun r d' => r = .error e ∧ d' = d) ⟨.error e, d, rfl, rfl, rfl⟩
      (fun e' d' ⟨heq, hd⟩ => by cases heq; cases hd; exact ⟨.refl h, rfl⟩)
      (fun a d' ⟨heq, _⟩ => absurd heq (by simp))
  · rename_i hgood
    exact Follows.lift (P := fun _ => True) (.pure trivial) fun _ _ => hf hgood

/-- A value that may be missing. -/
theorem Follows.okOr (h : d.Sound) {e : BavError} {value : Option β} {f : β → Play α}
    {g : β → Except BavError (α × ℕ × List Bool)}
    (hf : ∀ b, value = some b → Follows (f b) d (g b)) :
    Follows (check (Checked.okOr e value) >>= f) d (value.elim (.error e) g) := by
  cases value with
  | none =>
    exact CheckedState.Ends.bind (R := fun r d' => r = .error e ∧ d' = d) ⟨.error e, d, rfl, rfl, rfl⟩
      (fun e' d' ⟨heq, hd⟩ => by cases heq; cases hd; exact ⟨.refl h, rfl⟩)
      (fun a d' ⟨heq, _⟩ => absurd heq (by simp))
  | some b =>
    refine Follows.lift (P := fun b' => b' = b) (.pure rfl) ?_
    rintro _ rfl
    exact hf _ rfl

/-- The decoder looks at itself. -/
theorem Follows.get {f : Decoder → Play α} (hf : Follows (f d) d given) :
    Follows (MonadState.get >>= f) d given :=
  CheckedState.Ends.bind (R := fun r d' => r = .ok d ∧ d' = d) (.get ⟨rfl, rfl⟩)
    (fun e d' ⟨heq, _⟩ => absurd heq (by simp))
    (fun a d' ⟨heq, hd⟩ => by cases heq; cases hd; exact hf)

/-- The decoder changes itself. -/
theorem Follows.set {f : PUnit → Play α} (hd : Continues d d') (hf : Follows (f ⟨⟩) d' given) :
    Follows (MonadStateOf.set d' >>= f) d given :=
  CheckedState.Ends.bind (R := fun r d₁ => r = .ok ⟨⟩ ∧ d₁ = d') (.set ⟨rfl, rfl⟩)
    (fun e d' ⟨heq, _⟩ => absurd heq (by simp))
    (fun a d₁ ⟨_, hd₁⟩ => by
      cases hd₁
      exact hf.mono fun r d'' ⟨hd', heq⟩ => ⟨hd.trans hd', heq⟩)

/-! ### Numbers -/

/-- The bits of a byte above those of a value. -/
theorem or_payload_lt {value shift : ℕ} (h : value < 2 ^ shift) (byte : UInt8) :
    value ||| payload byte <<< shift < 2 ^ (shift + 7) := by
  have hpayload : payload byte < 128 := by
    rw [payload, UInt8.toNat_and]
    exact Nat.lt_succ_of_le Nat.and_le_right
  rw [or_shiftLeft h, Nat.pow_add]
  nlinarith

/-- The loop of `varint` reads inside its window, and its numbers have at most the bits it looks at. -/
theorem varintFrom_ok {data : List UInt8} {stop shift count value offset v o : ℕ}
    (hvalue : value < 2 ^ shift)
    (h : varintFrom data stop (List.range' shift count 7) value offset = .ok (v, o)) :
    v < 2 ^ (shift + 7 * count) ∧ offset < o ∧ o ≤ stop := by
  induction count generalizing shift value offset with
  | zero => contradiction
  | succ count ih =>
    rw [List.range'_succ, varintFrom] at h
    split at h
    · contradiction
    · rename_i byte hbyte
      have hstop : offset < stop := by
        have hlt := (List.getElem?_eq_some_iff.mp hbyte).1
        rw [List.length_take] at hlt
        omega
      have hbits := or_payload_lt hvalue byte
      have hcount : shift + 7 + 7 * count = shift + 7 * (count + 1) := by omega
      dsimp only at h
      split at h
      · obtain ⟨hv, hgt, hle⟩ := ih hbits h
        exact ⟨hcount ▸ hv, by omega, hle⟩
      · cases h
        refine ⟨hbits.trans_le (Nat.pow_le_pow_right (by decide) (by omega)), by omega, hstop⟩

theorem varint_ok {data : List UInt8} {stop offset v o : ℕ} (h : varint data stop offset = .ok (v, o)) :
    v < 2 ^ 35 ∧ offset < o ∧ o ≤ stop := by
  have hvalue : 0 < 2 ^ 0 := by decide
  have hrun : varintFrom data stop (List.range' 0 5 7) 0 offset = .ok (v, o) := h
  exact varintFrom_ok hvalue hrun

theorem follows_varintLoop (h : d.Sound) {stop : ℕ} (hstop : stop ≤ d.data.length)
    {shift count value : ℕ} (hvalue : value < 2 ^ shift) (hfits : shift + 7 * count ≤ 35) :
    Follows (varintLoop stop (List.range' shift count 7) value) d
      ((varintFrom d.data stop (List.range' shift count 7) value d.offset).map
        fun (v, o) => (v, o, d.pixels)) := by
  -- induction on the shifts that are left
  induction count generalizing d shift value with
  | zero => exact .throw h .badVarint
  | succ count ih =>
    rw [List.range'_succ, varintLoop]
    refine .get (.lift (.slice (Nat.zero_le _) hstop) ?_)
    rintro _ rfl
    rw [List.drop_zero, Nat.sub_zero]
    have hgiven : (varintFrom d.data stop (shift :: List.range' (shift + 7) count 7) value d.offset).map
        (fun (v, o) => (v, o, d.pixels)) = ((d.data.take stop)[d.offset]?).elim (.error .truncated)
          fun byte => (if more byte then varintFrom d.data stop (List.range' (shift + 7) count 7)
              (value ||| payload byte <<< shift) (d.offset + 1)
            else .ok (value ||| payload byte <<< shift, d.offset + 1)).map
              fun (v, o) => (v, o, d.pixels) := by
      rw [varintFrom]
      cases (d.data.take stop)[d.offset]? <;> rfl
    rw [hgiven]
    refine .okOr h fun byte hbyte => ?_
    have hlt : d.offset < stop := by
      have hlt := (List.getElem?_eq_some_iff.mp hbyte).1
      rw [List.length_take] at hlt
      omega
    have hdata := h.data_lt
    refine .lift (.addWord (by omega)) ?_
    rintro _ rfl
    have hd : Continues d { d with offset := d.offset + 1 } := ⟨rfl, rfl, rfl, rfl, by dsimp only; omega⟩
    have hbits := or_payload_lt hvalue byte
    refine .set hd ?_
    split
    · exact ih (h.continues hd) hstop hbits (by omega)
    · -- the value has at most 35 bits
      have hsmall : value ||| payload byte <<< shift < 2 ^ 64 :=
        hbits.trans_le (Nat.pow_le_pow_right (by decide) (by omega))
      rw [if_pos hsmall]
      exact .pure (h.continues hd) _

theorem follows_varint (h : d.Sound) {stop : ℕ} (hstop : stop ≤ d.data.length) :
    Follows (varintChecked stop) d
      ((varint d.data stop d.offset).map fun (v, o) => (v, o, d.pixels)) :=
  follows_varintLoop h hstop (show (0 : ℕ) < 2 ^ 0 by decide) (show 0 + 7 * 5 ≤ 35 by decide)

theorem of_map_varint {data : List UInt8} {stop offset v o : ℕ} {pixels pixels' : List Bool}
    (h : (varint data stop offset).map (fun (v, o) => (v, o, pixels)) = .ok (v, o, pixels')) :
    varint data stop offset = .ok (v, o) := by
  cases hvarint : varint data stop offset with
  | error e =>
    rw [hvarint] at h
    contradiction
  | ok result =>
    rw [hvarint] at h
    obtain ⟨v', o'⟩ := result
    cases h
    rfl

/-! ### Rows -/

theorem filter_checkedAdd {a b n : ℕ} (h : a + b < 2 ^ 64) :
    (checkedAdd a b).filter (· ≤ n) = if a + b ≤ n then some (a + b) else none := by
  rw [checkedAdd, if_pos (show a + b < Vma.addressLimit from h), Option.filter_some]
  simp only [decide_eq_true_eq]

theorem Sound.pixels_lt (h : d.Sound) : d.pixels.length < 2 ^ 32 := by
  have hwidth := h.width_lt
  have hheight := h.height_lt
  rw [h.pixels_length]
  calc d.header.width * d.header.height
      ≤ (2 ^ 16 - 1) * (2 ^ 16 - 1) := Nat.mul_le_mul (by omega) (by omega)
    _ < 2 ^ 32 := by norm_num

/-- The columns of a row are pixels. -/
theorem Sound.column_le (h : d.Sound) {y x : ℕ} (hy : y < d.header.height) (hx : x ≤ d.header.width) :
    y * d.header.width + x ≤ d.pixels.length := by
  have hrow : (y + 1) * d.header.width ≤ d.header.height * d.header.width := Nat.mul_le_mul_right _ hy
  rw [h.pixels_length, Nat.mul_comm d.header.width]
  rw [Nat.succ_mul] at hrow
  omega

theorem safe_fillChecked {pixels : List Bool} {start stop : ℕ} (hle : start ≤ stop)
    (hstop : stop ≤ pixels.length) (colour : Bool) :
    (fillChecked pixels start stop colour).Safe (fun _ => False) (· = fill pixels start stop colour) := by
  rw [fillChecked, if_pos ⟨hle, hstop⟩]
  exact .pure rfl

theorem decodeRuns_succ (data : List UInt8) (stop width y runs x : ℕ) (colour : Bool) (offset : ℕ)
    (pixels : List Bool) :
    decodeRuns data stop width y (runs + 1) x colour offset pixels =
      (varint data stop offset).map (fun (v, o) => (v, o, pixels)) >>= fun (run, o, pixels) =>
        (if x + run ≤ width then some (x + run) else none).elim (.error .badRow) fun next =>
          decodeRuns data stop width y runs next (!colour) o
            (fill pixels (y * width + x) (y * width + next) colour) := by
  rw [decodeRuns]
  cases varint data stop offset with
  | error e => rfl
  | ok result =>
    obtain ⟨run, o⟩ := result
    simp only [Except.map, bind, Except.bind]
    split <;> rfl

theorem follows_decodeRuns (h : d.Sound) {data : List UInt8} (hdata : d.data = data) {width : ℕ}
    (hwidth : d.header.width = width) {stop : ℕ} (hstop : stop ≤ data.length) {y : ℕ}
    (hy : y < d.header.height) {runs x : ℕ} (hx : x ≤ width) (colour : Bool) :
    Follows (decodeRunsChecked stop width y runs x colour) d
      (decodeRuns data stop width y runs x colour d.offset d.pixels) := by
  -- induction on the runs that are left
  induction runs generalizing d x colour with
  | zero => exact .pure h x
  | succ runs ih =>
    subst hdata hwidth
    rw [decodeRuns_succ, decodeRunsChecked]
    refine (follows_varint h hstop).bind fun run d₁ hd₁ heq => ?_
    have hrun := (varint_ok (of_map_varint heq)).1
    have hlt := h.width_lt
    have h₁ := h.continues hd₁
    rw [filter_checkedAdd (by omega)]
    refine .okOr h₁ fun next hnext => .get ?_
    obtain ⟨hle, rfl⟩ : x + run ≤ d.header.width ∧ x + run = next := by
      split_ifs at hnext with hle
      exact ⟨hle, Option.some.inj hnext⟩
    have hcolumn := h.column_le hy hle
    have hpixels := h.pixels_lt
    refine .lift (.mulWord (by omega)) ?_
    rintro _ rfl
    refine .lift (.addWord (by omega)) ?_
    rintro _ rfl
    refine .lift (.addWord (by omega)) ?_
    rintro _ rfl
    have hlength := hd₁.length
    refine .lift (safe_fillChecked (by omega) (by omega) colour) ?_
    rintro _ rfl
    have hd₂ : Continues d₁ { d₁ with
        pixels := fill d₁.pixels (y * d.header.width + x) (y * d.header.width + (x + run)) colour } :=
      ⟨rfl, rfl, rfl, List.length_mapIdx, h₁.offset_le⟩
    exact .set hd₂ (ih (h₁.continues hd₂) hd₁.data (congrArg Header.width hd₁.header)
      (hd₁.header ▸ hy) hle (!colour))

theorem decodeRows_succ (data : List UInt8) (stop width height rows index y offset : ℕ) (pixels : List Bool)
    (changed : List ℕ) :
    (decodeRows data stop width height (rows + 1) index y offset pixels changed).map
      (fun (o, pixels, changed) => (changed, o, pixels)) =
      (varint data stop offset).map (fun (v, o) => (v, o, pixels)) >>= fun (gap, o, pixels) =>
        if (if index = 0 then gap else y + 1 + gap) ≥ height then .error .badRow else
          (varint data stop o).map (fun (v, o) => (v, o, pixels)) >>= fun (runs, o, pixels) =>
            decodeRuns data stop width (if index = 0 then gap else y + 1 + gap) runs 0 false o pixels >>=
              fun (x, o, pixels) =>
                if x ≠ width then .error .badRow else
                  (decodeRows data stop width height rows (index + 1)
                    (if index = 0 then gap else y + 1 + gap) o pixels
                    (changed ++ [(if index = 0 then gap else y + 1 + gap) % 2 ^ 16])).map
                      fun (o, pixels, changed) => (changed, o, pixels) := by
  rw [decodeRows]
  cases varint data stop offset with
  | error e => rfl
  | ok gap =>
    obtain ⟨gap, o⟩ := gap
    simp only [Except.map, bind, Except.bind]
    generalize (if index = 0 then gap else y + 1 + gap) = y
    by_cases hbelow : y ≥ height
    · rw [if_pos hbelow, if_pos hbelow]
    rw [if_neg hbelow, if_neg hbelow]
    cases varint data stop o with
    | error e => rfl
    | ok runs =>
      obtain ⟨runs, o⟩ := runs
      dsimp only
      cases decodeRuns data stop width y runs 0 false o pixels with
      | error e => rfl
      | ok reached =>
        obtain ⟨x, o, pixels⟩ := reached
        dsimp only
        by_cases hfull : x ≠ width
        · rw [if_pos hfull, if_pos hfull]
        · rw [if_neg hfull, if_neg hfull]

theorem follows_decodeRows (h : d.Sound) {data : List UInt8} (hdata : d.data = data) {width height : ℕ}
    (hwidth : d.header.width = width) (hheight : d.header.height = height) {stop : ℕ}
    (hstop : stop ≤ data.length) {rows index y : ℕ} (hy : y < 2 ^ 16) (changed : List ℕ) :
    Follows (decodeRowsChecked stop width height rows index y changed) d
      ((decodeRows data stop width height rows index y d.offset d.pixels changed).map
        fun (o, pixels, changed) => (changed, o, pixels)) := by
  -- induction on the rows that are left
  induction rows generalizing d index y changed with
  | zero => exact .pure h changed
  | succ rows ih =>
    subst hdata hwidth hheight
    rw [decodeRows_succ, decodeRowsChecked]
    refine (follows_varint h hstop).bind fun gap d₁ hd₁ heq => ?_
    have hgap := (varint_ok (of_map_varint heq)).1
    have h₁ := h.continues hd₁
    have hnext : (nextRow index y gap).Safe (fun _ => False)
        (· = if index = 0 then gap else y + 1 + gap) := by
      unfold nextRow
      split
      · exact .pure rfl
      · refine (Checked.Safe.addWord (by omega)).bind ?_
        rintro _ rfl
        exact .addWord (by omega)
    refine .lift hnext ?_
    rintro _ rfl
    refine .rejectIf h₁ fun hbelow => ?_
    have hrow := Nat.lt_of_not_ge hbelow
    have hlt := h.height_lt
    refine (hd₁.data ▸ follows_varint h₁ (hd₁.data ▸ hstop)).bind fun runs d₂ hd₂ _ => ?_
    have h₂ := h₁.continues hd₂
    have hheader := hd₂.header.trans hd₁.header
    refine (follows_decodeRuns h₂ (hd₂.data.trans hd₁.data) (congrArg Header.width hheader) hstop
      (hheader ▸ hrow) (Nat.zero_le _) false).bind fun x d₃ hd₃ _ => ?_
    have hheader₃ := hd₃.header.trans hheader
    refine .rejectIf (h₂.continues hd₃) fun _ => ?_
    exact ih (h₂.continues hd₃) ((hd₃.data.trans hd₂.data).trans hd₁.data)
      (congrArg Header.width hheader₃) (congrArg Header.height hheader₃) (hrow.trans hlt) _

/-! ### A frame -/

/-- The outcome of a call and the decoder after it, as the decoder without checks has them. -/
structure Outcome (d : Decoder) (r : Except BavError (Bool × List ℕ)) (d' : Decoder) : Prop where
  sound : d'.Sound
  data : d'.data = d.data
  header : d'.header = d.header
  ok : ∀ more changed, r = .ok (more, changed) → d.nextFrame = .ok (more, changed, d')
  error : ∀ e, r = .error e → d.nextFrame = .error e ∧ d'.decoded = d.decoded

/-- The frame's rows, as the decoder without checks reads them, with the number of the frame. -/
def frameRows (d : Decoder) : Except BavError (List ℕ × ℕ × List Bool) := do
  let (length, offset) ← varint d.data d.data.length d.offset
  if offset + length ≤ d.data.length then
    let stop := offset + length
    let (rows, offset) ← varint d.data stop offset
    let (offset, pixels, changed) ←
      decodeRows d.data stop d.header.width d.header.height rows 0 0 offset d.pixels []
    if offset ≠ stop then .error .badLength else .ok (changed, offset, pixels)
  else .error .truncated

theorem nextFrame_eq_frameRows (d : Decoder) (h : d.decoded ≠ d.header.frames) :
    d.nextFrame = d.frameRows.map fun (changed, offset, pixels) =>
      (true, changed, { d with offset, pixels, decoded := d.decoded + 1 }) := by
  rw [nextFrame, if_neg h, frameRows]
  cases varint d.data d.data.length d.offset with
  | error e => rfl
  | ok length =>
    obtain ⟨length, offset⟩ := length
    simp only [Except.map, bind, Except.bind]
    by_cases hfits : offset + length ≤ d.data.length
    · rw [if_pos hfits, if_pos hfits]
      cases varint d.data (offset + length) offset with
      | error e => rfl
      | ok rows =>
        obtain ⟨rows, offset'⟩ := rows
        dsimp only
        cases decodeRows d.data (offset + length) d.header.width d.header.height rows 0 0 offset'
            d.pixels [] with
        | error e => rfl
        | ok reached =>
          obtain ⟨offset'', pixels, changed⟩ := reached
          dsimp only
          by_cases hend : offset'' ≠ offset + length
          · rw [if_pos hend, if_pos hend]
          · rw [if_neg hend, if_neg hend]
    · rw [if_neg hfits, if_neg hfits]

theorem frameRows_eq (d : Decoder) :
    d.frameRows =
      (varint d.data d.data.length d.offset).map (fun (v, o) => (v, o, d.pixels)) >>=
        fun (length, offset, pixels) =>
          (if offset + length ≤ d.data.length then some (offset + length) else none).elim
            (.error .truncated) fun stop =>
              (varint d.data stop offset).map (fun (v, o) => (v, o, pixels)) >>=
                fun (rows, offset, pixels) =>
                  (decodeRows d.data stop d.header.width d.header.height rows 0 0 offset pixels []).map
                      (fun (o, pixels, changed) => (changed, o, pixels)) >>=
                    fun (changed, offset, pixels) =>
                      if offset ≠ stop then .error .badLength else .ok (changed, offset, pixels) := by
  rw [frameRows]
  cases varint d.data d.data.length d.offset with
  | error e => rfl
  | ok length =>
    obtain ⟨length, offset⟩ := length
    simp only [Except.map, bind, Except.bind]
    by_cases hfits : offset + length ≤ d.data.length
    · rw [if_pos hfits, if_pos hfits]
      dsimp only [Option.elim]
      cases varint d.data (offset + length) offset with
      | error e => rfl
      | ok rows =>
        obtain ⟨rows, offset'⟩ := rows
        dsimp only
        cases decodeRows d.data (offset + length) d.header.width d.header.height rows 0 0 offset'
          d.pixels [] <;> rfl
    · rw [if_neg hfits, if_neg hfits]
      rfl

theorem follows_frameRows (h : d.Sound) : Follows frameRowsChecked d d.frameRows := by
  rw [frameRows_eq, frameRowsChecked]
  refine .get ((follows_varint h le_rfl).bind fun length d₁ hd₁ heq => .get ?_)
  have hlength := (varint_ok (of_map_varint heq)).1
  have hdata := h.data_lt
  have h₁ := h.continues hd₁
  have hoffset := hd₁.offset_le
  rw [filter_checkedAdd (by omega), hd₁.data]
  refine .okOr h₁ fun stop hstop => ?_
  obtain ⟨hle, rfl⟩ : d₁.offset + length ≤ d.data.length ∧ d₁.offset + length = stop := by
    split_ifs at hstop with hle
    exact ⟨hle, Option.some.inj hstop⟩
  refine (hd₁.data ▸ follows_varint h₁ (hd₁.data ▸ hle)).bind fun rows d₂ hd₂ _ => ?_
  have h₂ := h₁.continues hd₂
  have hheader := hd₂.header
  rw [hd₁.header] at hheader ⊢
  refine (follows_decodeRows h₂ (hd₂.data.trans hd₁.data) (congrArg Header.width hheader)
    (congrArg Header.height hheader) hle (by decide) []).bind fun changed d₃ hd₃ _ => .get ?_
  exact .rejectIf (h₂.continues hd₃) fun _ => .pure (h₂.continues hd₃) changed

/-- **A call does not panic**, and does what the decoder without checks does. -/
theorem ends_nextFrame (h : d.Sound) : nextFrameChecked.Ends d (Outcome d) := by
  refine CheckedState.Ends.bind (R := fun r d' => r = .ok d ∧ d' = d) (.get ⟨rfl, rfl⟩)
    (fun e d' ⟨heq, _⟩ => absurd heq (by simp)) ?_
  rintro _ _ ⟨heq, rfl⟩
  cases heq
  split
  · rename_i hlast
    refine .pure ⟨h, rfl, rfl, fun more changed heq => ?_, fun e heq => absurd heq (by simp)⟩
    cases heq
    rw [nextFrame, if_pos hlast]
  · rename_i hlast
    refine CheckedState.Ends.bind (follows_frameRows h) ?_ ?_
    · rintro e d' ⟨hd, heq⟩
      refine ⟨h.continues hd, hd.data, hd.header, fun more changed hok => (absurd hok (by simp)), fun e' he => ?_⟩
      cases he
      rw [nextFrame_eq_frameRows _ hlast, heq]
      exact ⟨rfl, hd.decoded⟩
    · rintro changed d' ⟨hd, heq⟩
      have hcount : d'.decoded + 1 ≤ d'.header.frames := by
        have hle := (h.continues hd).decoded_le
        rw [hd.decoded, hd.header] at hle ⊢
        omega
      have hframes := (h.continues hd).frames_lt
      have hrun : d'.countFrame = pure { d' with decoded := d'.decoded + 1 } := if_pos (by omega)
      refine ⟨.ok (true, changed), { d' with decoded := d'.decoded + 1 }, ?_, ?_⟩
      · change ((check d'.countFrame >>= _).runFrom d' : Option _) = _
        rw [hrun]
        rfl
      · refine ⟨?_, hd.data, hd.header, fun more changed' hok => ?_, fun e he => absurd he (by simp)⟩
        · exact { h.continues hd with decoded_le := hcount }
        · cases hok
          rw [nextFrame_eq_frameRows _ hlast, heq]
          simp only [Except.map, hd.decoded, ← hd.data, ← hd.header]

end Decoder

/-! ## What an accepted frame does -/

/-- Rows with their runs, painted over the pixels. -/
def paint (width : ℕ) (rows : List (ℕ × List ℕ)) (pixels : List Bool) : List Bool :=
  rows.foldl (fun pixels (y, runs) => overwrite pixels (y * width) (expand false runs)) pixels

/-- A row written over the pixels. -/
theorem getElem?_overwrite_line {width : ℕ} (hwidth : 0 < width) {values : List Bool}
    (hvalues : values.length = width) (pixels : List Bool) (y i : ℕ) :
    (overwrite pixels (y * width) values)[i]? =
      if i / width = y then pixels[i]?.map fun _ => values.getD (i % width) false else pixels[i]? := by
  have hdiv := Nat.div_add_mod' i width
  have hmod := Nat.mod_lt i hwidth
  rw [overwrite, List.getElem?_mapIdx]
  by_cases hy : i / width = y
  · subst hy
    have hin : i - i / width * width = i % width := by omega
    have hle : i / width * width ≤ i := Nat.div_mul_le_self i width
    rw [if_pos rfl]
    have hlt : i % width < values.length := hvalues.symm ▸ hmod
    simp only [if_pos hle, hin, List.getD_eq_getElem?_getD, List.getElem?_eq_getElem hlt, Option.getD_some]
  · rw [if_neg hy]
    by_cases hbefore : y * width ≤ i
    · -- behind the row there are no values
      have hbehind : width ≤ i - y * width := by
        by_contra hlt
        refine hy (Nat.div_eq_of_lt_le hbefore ?_)
        rw [Nat.succ_mul]
        omega
      simp only [if_pos hbefore, List.getD_eq_getElem?_getD,
        List.getElem?_eq_none (hvalues.trans_le hbehind), Option.getD_none]
      exact Option.map_id'
    · simp only [if_neg hbefore]
      exact Option.map_id'

theorem length_paint (width : ℕ) (rows : List (ℕ × List ℕ)) (pixels : List Bool) :
    (paint width rows pixels).length = pixels.length := by
  induction rows generalizing pixels with
  | nil => rfl
  | cons row rows ih =>
    rw [paint, List.foldl_cons]
    exact (ih _).trans List.length_mapIdx

/-- Pixels outside the rows stay. -/
theorem getElem?_paint_of_not_mem {width : ℕ} (hwidth : 0 < width) {rows : List (ℕ × List ℕ)}
    (hrows : ∀ row ∈ rows, row.2.sum = width) {i : ℕ} (hi : i / width ∉ rows.map Prod.fst)
    (pixels : List Bool) : (paint width rows pixels)[i]? = pixels[i]? := by
  induction rows generalizing pixels with
  | nil => rfl
  | cons row rows ih =>
    obtain ⟨hrow, hrest⟩ := List.forall_mem_cons.mp hrows
    obtain ⟨hne, hnot⟩ := List.ne_and_not_mem_of_not_mem_cons hi
    rw [paint, List.foldl_cons]
    refine (ih hrest hnot _).trans ?_
    rw [getElem?_overwrite_line hwidth ((length_expand false row.2).trans hrow), if_neg hne]

/-- Pixels of the rows do not depend on what was there. -/
theorem getElem?_paint_of_mem {width : ℕ} (hwidth : 0 < width) {rows : List (ℕ × List ℕ)}
    (hrows : ∀ row ∈ rows, row.2.sum = width) {i : ℕ} (hi : i / width ∈ rows.map Prod.fst) :
    ∃ colour, ∀ pixels : List Bool, (paint width rows pixels)[i]? = pixels[i]?.map fun _ => colour := by
  induction rows with
  | nil => exact absurd hi List.not_mem_nil
  | cons row rows ih =>
    obtain ⟨hrow, hrest⟩ := List.forall_mem_cons.mp hrows
    have hline := getElem?_overwrite_line hwidth ((length_expand false row.2).trans hrow)
    by_cases hlater : i / width ∈ rows.map Prod.fst
    · -- a later row has the last word
      obtain ⟨colour, hcolour⟩ := ih hrest hlater
      refine ⟨colour, fun pixels => ?_⟩
      rw [paint, List.foldl_cons]
      refine (hcolour _).trans ?_
      rw [hline]
      split
      · rw [Option.map_map]
        rfl
      · rfl
    · have hy : i / width = row.1 := by
        rcases List.mem_cons.mp hi with hy | hmem
        · exact hy
        · exact absurd hmem hlater
      refine ⟨(expand false row.2).getD (i % width) false, fun pixels => ?_⟩
      rw [paint, List.foldl_cons]
      refine (getElem?_paint_of_not_mem hwidth hrest hlater _).trans ?_
      rw [hline, if_pos hy]

namespace Decoder

/-- The runs of a row fill a part of it, whatever was there. -/
theorem decodeRuns_ok {data : List UInt8} {stop width y runs x x' offset offset' : ℕ} {colour : Bool}
    {pixels pixels' : List Bool} (hx : x ≤ width)
    (h : decodeRuns data stop width y runs x colour offset pixels = .ok (x', offset', pixels')) :
    ∃ lengths : List ℕ, x' = x + lengths.sum ∧
      ∀ pixels, decodeRuns data stop width y runs x colour offset pixels =
        .ok (x', offset', overwrite pixels (y * width + x) (expand colour lengths)) := by
  induction runs generalizing x colour offset pixels with
  | zero =>
    cases h
    exact ⟨[], rfl, fun pixels => by rw [expand, overwrite_nil]; rfl⟩
  | succ runs ih =>
    rw [decodeRuns] at h
    cases hvarint : varint data stop offset with
    | error e =>
      rw [hvarint] at h
      contradiction
    | ok run =>
      obtain ⟨run, offset₁⟩ := run
      rw [hvarint] at h
      simp only [bind, Except.bind] at h
      split at h
      · rename_i hle
        obtain ⟨lengths, hsum, hall⟩ := ih hle h
        refine ⟨run :: lengths, ?_, fun pixels => ?_⟩
        · rw [List.sum_cons, hsum, Nat.add_assoc]
        · rw [decodeRuns, hvarint]
          simp only [bind, Except.bind]
          rw [if_pos hle, hall, expand, ← overwrite_fill, Nat.add_assoc]
      · contradiction

/-- The rows of a frame, whatever was there: each full, below the height, and from the top down. -/
theorem decodeRows_ok {data : List UInt8} {stop width height rows index y offset offset' : ℕ}
    (hheight : height ≤ 2 ^ 16) {pixels pixels' : List Bool} {changed changed' : List ℕ}
    (h : decodeRows data stop width height rows index y offset pixels changed =
      .ok (offset', pixels', changed')) :
    ∃ painted : List (ℕ × List ℕ),
      (∀ pixels changed, decodeRows data stop width height rows index y offset pixels changed =
        .ok (offset', paint width painted pixels, changed ++ painted.map Prod.fst)) ∧
      (∀ row ∈ painted, row.2.sum = width) ∧
      (∀ y' ∈ painted.map Prod.fst, y' < height ∧ (index ≠ 0 → y < y')) ∧
      (painted.map Prod.fst).Pairwise (· < ·) := by
  induction rows generalizing index y offset pixels changed with
  | zero =>
    cases h
    refine ⟨[], fun pixels changed => ?_, (fun _ hmem => absurd hmem (by simp)),
      (fun _ hmem => absurd hmem (by simp)), .nil⟩
    rw [List.map_nil, List.append_nil]
    rfl
  | succ rows ih =>
    rw [decodeRows] at h
    cases hgap : varint data stop offset with
    | error e =>
      rw [hgap] at h
      contradiction
    | ok gap =>
      obtain ⟨gap, offset₁⟩ := gap
      rw [hgap] at h
      simp only [bind, Except.bind] at h
      obtain ⟨y', hy'⟩ : ∃ y', y' = if index = 0 then gap else y + 1 + gap := ⟨_, rfl⟩
      rw [← hy'] at h
      split at h
      · contradiction
      rename_i hbelow
      have hlt : y' < height := Nat.lt_of_not_ge hbelow
      have hafter : index ≠ 0 → y < y' := by
        intro hindex
        rw [if_neg hindex] at hy'
        omega
      cases hruns : varint data stop offset₁ with
      | error e =>
        rw [hruns] at h
        contradiction
      | ok runs =>
        obtain ⟨runs, offset₂⟩ := runs
        rw [hruns] at h
        dsimp only at h
        cases hrow : decodeRuns data stop width y' runs 0 false offset₂ pixels with
        | error e =>
          rw [hrow] at h
          contradiction
        | ok reached =>
          obtain ⟨x, offset₃, pixels₁⟩ := reached
          rw [hrow] at h
          dsimp only at h
          split at h
          · contradiction
          rename_i hfull
          obtain ⟨lengths, hsum, hall⟩ := decodeRuns_ok (Nat.zero_le _) hrow
          obtain ⟨painted, hrows, hsums, hbounds, hsorted⟩ := ih h
          have hwidth : lengths.sum = width := by
            have hx := not_not.mp hfull
            omega
          have hsmall : y' % 2 ^ 16 = y' := Nat.mod_eq_of_lt (by omega)
          refine ⟨(y', lengths) :: painted, fun pixels changed => ?_, ?_, ?_, ?_⟩
          · rw [decodeRows, hgap]
            simp only [bind, Except.bind]
            rw [← hy', if_neg hbelow, hruns]
            dsimp only
            rw [hall]
            dsimp only
            rw [if_neg hfull, hrows, hsmall, Nat.add_zero, List.append_assoc]
            rfl
          · exact List.forall_mem_cons.mpr ⟨hwidth, hsums⟩
          · refine List.forall_mem_cons.mpr ⟨⟨hlt, hafter⟩, fun y'' hmem => ?_⟩
            obtain ⟨hlt', hgt⟩ := hbounds y'' hmem
            exact ⟨hlt', fun hindex => (hafter hindex).trans (hgt (Nat.succ_ne_zero index))⟩
          · refine List.pairwise_cons.mpr ⟨fun y'' hmem => ?_, hsorted⟩
            exact (hbounds y'' hmem).2 (Nat.succ_ne_zero index)

/-! ## Any number of calls -/

/-- What an accepted frame does: the rows it reports go down strictly inside the picture, pixels of other
rows stay, those of the reported rows do not depend on what was there, and the frame takes its length and as
many bytes as that says. -/
structure Applied (d : Decoder) (changed : List ℕ) (d' : Decoder) : Prop where
  increasing : changed.Pairwise (· < ·)
  below : ∀ y ∈ changed, y < d.header.height
  length : d'.pixels.length = d.pixels.length
  outside : ∀ i : ℕ, i / d.header.width ∉ changed → d'.pixels[i]? = d.pixels[i]?
  overwritten : ∀ pixels : List Bool, pixels.length = d.pixels.length →
    ∃ d₂, nextFrameChecked.runFrom { d with pixels } = some (.ok (true, changed), d₂) ∧
      ∀ i : ℕ, i / d.header.width ∈ changed → d₂.pixels[i]? = d'.pixels[i]?
  consumed : ∃ length start, varint d.data d.data.length d.offset = .ok (length, start) ∧
    d'.offset = start + length ∧ d'.offset ≤ d.data.length

variable {d d' : Decoder}

/-- A frame that is accepted was read as rows of runs. -/
theorem frameRows_ok {changed : List ℕ} {offset : ℕ} {pixels : List Bool}
    (hheight : d.header.height ≤ 2 ^ 16) (h : d.frameRows = .ok (changed, offset, pixels)) :
    (∃ length start, varint d.data d.data.length d.offset = .ok (length, start) ∧
      offset = start + length ∧ offset ≤ d.data.length) ∧
    ∃ painted : List (ℕ × List ℕ), changed = painted.map Prod.fst ∧
      (∀ pixels, ({ d with pixels } : Decoder).frameRows =
        .ok (changed, offset, paint d.header.width painted pixels)) ∧
      (∀ row ∈ painted, row.2.sum = d.header.width) ∧ (∀ y ∈ changed, y < d.header.height) ∧
      changed.Pairwise (· < ·) := by
  rw [frameRows] at h
  cases hlength : varint d.data d.data.length d.offset with
  | error e =>
    rw [hlength] at h
    contradiction
  | ok length =>
    obtain ⟨length, start⟩ := length
    rw [hlength] at h
    simp only [bind, Except.bind] at h
    split at h
    case isFalse => contradiction
    rename_i hfits
    cases hrows : varint d.data (start + length) start with
    | error e =>
      rw [hrows] at h
      contradiction
    | ok rows =>
      obtain ⟨rows, offset₁⟩ := rows
      rw [hrows] at h
      dsimp only at h
      cases hdecode : decodeRows d.data (start + length) d.header.width d.header.height rows 0 0 offset₁
          d.pixels [] with
      | error e =>
        rw [hdecode] at h
        contradiction
      | ok reached =>
        obtain ⟨offset₂, pixels₂, changed₂⟩ := reached
        rw [hdecode] at h
        dsimp only at h
        split at h
        · contradiction
        rename_i hend
        cases h
        have hoffset : offset = start + length := not_not.mp hend
        obtain ⟨painted, hall, hsums, hbounds, hsorted⟩ := decodeRows_ok hheight hdecode
        have hchanged : changed = painted.map Prod.fst := by
          have heq := (hall d.pixels []).symm.trans hdecode
          cases heq
          rfl
        refine ⟨⟨length, start, rfl, hoffset, hoffset ▸ hfits⟩, painted, hchanged, fun pixels => ?_, hsums,
          fun y hy => (hbounds y (hchanged ▸ hy)).1, hchanged ▸ hsorted⟩
        rw [frameRows]
        dsimp only
        rw [hlength]
        simp only [bind, Except.bind]
        rw [if_pos hfits, hrows]
        dsimp only
        rw [hall]
        dsimp only
        rw [if_neg hend, List.nil_append, hchanged]

/-- The first frame of a decoder does not depend on its pixels, and paints rows over them. -/
theorem applied_of_nextFrame (h : d.Sound) (hwidth : 0 < d.header.width) {changed : List ℕ}
    (hnext : nextFrameChecked.runFrom d = some (.ok (true, changed), d')) : Applied d changed d' := by
  obtain ⟨r, d₁, hrun, houtcome⟩ := ends_nextFrame h
  cases hnext.symm.trans hrun
  have hframe := houtcome.ok true changed rfl
  by_cases hlast : d.decoded = d.header.frames
  · rw [nextFrame, if_pos hlast] at hframe
    cases hframe
  rw [nextFrame_eq_frameRows d hlast] at hframe
  cases hrows : d.frameRows with
  | error e =>
    rw [hrows] at hframe
    contradiction
  | ok result =>
    obtain ⟨changed', offset, pixels⟩ := result
    rw [hrows] at hframe
    cases hframe
    obtain ⟨hconsumed, painted, hchanged, hall, hsums, hbelow, hsorted⟩ := frameRows_ok h.height_lt.le hrows
    have hpixels : pixels = paint d.header.width painted d.pixels := by
      have heq := hrows.symm.trans (hall d.pixels)
      cases heq
      rfl
    refine ⟨hsorted, hbelow, ?_, fun i hi => ?_, fun pixels₂ hlength => ?_, hconsumed⟩
    · rw [hpixels, length_paint]
    · rw [hpixels]
      exact getElem?_paint_of_not_mem hwidth hsums (hchanged ▸ hi) _
    · -- the same call over other pixels
      have hsound : ({ d with pixels := pixels₂ } : Decoder).Sound :=
        { h with pixels_length := hlength.trans h.pixels_length }
      obtain ⟨r₂, d₂, hrun₂, houtcome₂⟩ := ends_nextFrame hsound
      have hframe₂ : ({ d with pixels := pixels₂ } : Decoder).nextFrame = .ok (true, changed,
          { d with
            offset, pixels := paint d.header.width painted pixels₂, decoded := d.decoded + 1 }) := by
        have hlast₂ : ({ d with pixels := pixels₂ } : Decoder).decoded ≠
            ({ d with pixels := pixels₂ } : Decoder).header.frames := hlast
        rw [nextFrame_eq_frameRows _ hlast₂, hall]
        rfl
      cases r₂ with
      | error e => exact absurd (hframe₂.symm.trans (houtcome₂.error e rfl).1) (by simp)
      | ok result =>
        obtain ⟨more, changed₂⟩ := result
        have hsame := hframe₂.symm.trans (houtcome₂.ok more changed₂ rfl)
        cases hsame
        refine ⟨_, hrun₂, fun i hi => ?_⟩
        rw [hpixels]
        obtain ⟨colour, hcolour⟩ := getElem?_paint_of_mem hwidth hsums (hchanged ▸ hi)
        refine (hcolour pixels₂).trans ((hcolour d.pixels).trans ?_).symm
        by_cases hin : i < d.pixels.length
        · rw [List.getElem?_eq_getElem hin, List.getElem?_eq_getElem (hlength.symm ▸ hin)]
          rfl
        · rw [List.getElem?_eq_none (Nat.le_of_not_lt hin),
            List.getElem?_eq_none (hlength.trans_le (Nat.le_of_not_lt hin))]

/-- Successive calls: their results, and the decoder after them. -/
def calls : ℕ → Decoder → Option (List (Except BavError (Bool × List ℕ)) × Decoder)
  | 0, d => some ([], d)
  | n + 1, d => do
    let (r, d) ← nextFrameChecked.runFrom d
    let (rs, d) ← calls n d
    return (r :: rs, d)

/-- Whether a call returned a frame. -/
def isFrame : Except BavError (Bool × List ℕ) → Bool
  | .ok (true, _) => true
  | _ => false

/-- A call counts the frame that it returns. -/
theorem Outcome.decoded {r : Except BavError (Bool × List ℕ)} (h : Outcome d r d') :
    d'.decoded = d.decoded + if isFrame r then 1 else 0 := by
  cases r with
  | error e => exact (h.error e rfl).2
  | ok result =>
    obtain ⟨more, changed⟩ := result
    have hframe := h.ok more changed rfl
    by_cases hlast : d.decoded = d.header.frames
    · rw [nextFrame, if_pos hlast] at hframe
      cases hframe
      rfl
    · rw [nextFrame_eq_frameRows d hlast] at hframe
      cases hrows : d.frameRows with
      | error e =>
        rw [hrows] at hframe
        contradiction
      | ok rows =>
        rw [hrows] at hframe
        cases hframe
        rfl

theorem calls_spec (h : d.Sound) (n : ℕ) :
    ∃ results d', calls n d = some (results, d') ∧ results.length = n ∧ d'.Sound ∧
      d'.header = d.header ∧ d'.decoded = d.decoded + results.countP isFrame := by
  induction n generalizing d with
  | zero => exact ⟨[], d, rfl, rfl, h, rfl, rfl⟩
  | succ n ih =>
    obtain ⟨r, d₁, hrun, houtcome⟩ := ends_nextFrame h
    obtain ⟨results, d', hcalls, hlength, hsound, hheader, hdecoded⟩ := ih houtcome.sound
    refine ⟨r :: results, d', ?_, congrArg (· + 1) hlength, hsound, hheader.trans houtcome.header, ?_⟩
    · rw [calls, hrun]
      simp only [Option.bind_eq_bind, Option.bind_some, hcalls]
      rfl
    · rw [hdecoded, houtcome.decoded, List.countP_cons]
      omega

end Decoder

/-! ## The header -/

theorem index_run {items : List UInt8} {i : ℕ} (h : i < items.length) :
    index (ε := BavError) items i = pure (items.getD i 0) := by
  rw [index, List.getElem?_eq_getElem h, List.getD_eq_getElem?_getD, List.getElem?_eq_getElem h]
  rfl

theorem u16AtChecked_eq {bytes : List UInt8} {offset : ℕ} (h : offset + 1 < bytes.length) :
    u16AtChecked bytes offset = pure (u16At bytes offset) := by
  rw [u16AtChecked, index_run (by omega), index_run h]
  rfl

/-- Without a check failing, the header is read as without checks. -/
theorem parseHeaderChecked_eq (bytes : List UInt8) :
    parseHeaderChecked bytes = ExceptT.mk (some (parseHeader bytes)) := by
  rw [parseHeaderChecked, parseHeader, rejectIf]
  by_cases hshort : bytes.length < headerBytes
  · rw [if_pos hshort, decide_eq_true hshort, Bool.true_or, if_pos rfl]
    rfl
  have hlength : 16 ≤ bytes.length := Nat.le_of_not_lt hshort
  have hmagic : slice (ε := BavError) bytes 0 4 = pure (bytes.take 4) := if_pos ⟨by decide, by omega⟩
  have hframes : slice (ε := BavError) bytes 12 16 = pure ((bytes.drop 12).take 4) :=
    if_pos ⟨by decide, hlength⟩
  rw [if_neg hshort, decide_eq_false hshort, Bool.false_or, pure_bind, hmagic, pure_bind, rejectIf]
  by_cases hname : bytes.take 4 ≠ Encoder.magic
  · rw [if_pos hname, if_pos (bne_iff_ne.mpr hname)]
    rfl
  -- the fields lie in the sixteen bytes
  have hfield : u32At ((bytes.drop 12).take 4) 0 = u32At bytes 12 := by
    simp [u32At, u16At, List.getD_eq_getElem?_getD, List.getElem?_drop]
  have hsame : ¬ (bytes.take 4 != Encoder.magic) = true := fun h => hname (bne_iff_ne.mp h)
  rw [if_neg hname, if_neg hsame, pure_bind, u16AtChecked_eq (by omega), pure_bind,
    u16AtChecked_eq (by omega), pure_bind, u16AtChecked_eq (by omega), pure_bind,
    u16AtChecked_eq (by omega), pure_bind, hframes, pure_bind, hfield, rejectIf]
  dsimp only
  split <;> rfl

theorem u16At_lt (bytes : List UInt8) (offset : ℕ) : u16At bytes offset < 2 ^ 16 := by
  have hlow := (bytes.getD offset 0).toNat_lt
  have hhigh := (bytes.getD (offset + 1) 0).toNat_lt
  unfold u16At
  omega

/-- What the header checks, and what its fields are too narrow for. -/
theorem parseHeader_ok {bytes : List UInt8} {header : Header} (h : parseHeader bytes = .ok header) :
    16 ≤ bytes.length ∧ 0 < header.width ∧ header.width < 2 ^ 16 ∧ header.height < 2 ^ 16 ∧
      header.frames < 2 ^ 32 := by
  unfold parseHeader at h
  split at h
  · contradiction
  rename_i hstart
  simp only [Bool.or_eq_true, decide_eq_true_eq, not_or] at hstart
  dsimp only at h
  split at h
  · contradiction
  rename_i hvalid
  cases h
  have hlow := u16At_lt bytes 12
  have hhigh := u16At_lt bytes (12 + 2)
  refine ⟨Nat.le_of_not_lt hstart.1, ?_, u16At_lt bytes 4, u16At_lt bytes 6, ?_⟩
  · exact Nat.pos_of_ne_zero fun hzero => hvalid (.inl hzero)
  · change u16At bytes 12 + u16At bytes (12 + 2) * 2 ^ 16 < 2 ^ 32
    omega

namespace Decoder

/-- Making a decoder does not panic, and a new decoder is safe to call. -/
theorem newChecked_spec {data : List UInt8} (hdata : data.length < 2 ^ 63) :
    ∃ r, (newChecked data).run = some r ∧ r = new data ∧ ∀ d, r = .ok d → d.Sound ∧ 0 < d.header.width := by
  rw [newChecked, new, parseHeaderChecked_eq]
  cases hparse : parseHeader data with
  | error e => exact ⟨.error e, rfl, rfl, fun _ heq => absurd heq (by simp)⟩
  | ok header =>
    obtain ⟨hlength, hpos, hwidth, hheight, hframes⟩ := parseHeader_ok hparse
    have hsize : header.width * header.height < 2 ^ 64 := by nlinarith
    have hmul : mulWord (ε := BavError) header.width header.height = pure (header.width * header.height) :=
      if_pos hsize
    refine ⟨_, ?_, rfl, ?_⟩
    · change ((mulWord header.width header.height >>= _ : Checked BavError Decoder)).run = _
      rw [hmul]
      rfl
    · intro d heq
      cases heq
      exact ⟨⟨hdata, hlength, hwidth, hheight, hframes, Nat.zero_le _, List.length_replicate⟩, hpos⟩

/-- **Hostile input is safe.** On any bytes that fit in memory, making a decoder and any number of calls
finish without a panic. A call that returns a frame has applied it; no more frames than the header announces
are returned. -/
theorem decoder_safe (data : List UInt8) (hdata : data.length < 2 ^ 63) :
    (∃ r, (newChecked data).run = some r) ∧
    ∀ d, (newChecked data).run = some (.ok d) → ∀ n,
      ∃ results d', calls n d = some (results, d') ∧ results.length = n ∧
        results.countP isFrame ≤ d.header.frames ∧
        ∃ r d'', nextFrameChecked.runFrom d' = some (r, d'') ∧
          ∀ changed, r = .ok (true, changed) → Applied d' changed d'' := by
  obtain ⟨r, hrun, -, hnew⟩ := newChecked_spec hdata
  refine ⟨⟨r, hrun⟩, fun d hd n => ?_⟩
  obtain ⟨hsound, hwidth⟩ := hnew d (Option.some.inj (hrun.symm.trans hd))
  obtain ⟨results, d', hcalls, hlength, hsound', hheader, hdecoded⟩ := calls_spec hsound n
  obtain ⟨r', d'', hrun', -⟩ := ends_nextFrame hsound'
  refine ⟨results, d', hcalls, hlength, ?_, r', d'', hrun', ?_⟩
  · have hle := hsound'.decoded_le
    rw [hheader] at hle
    omega
  · rintro changed rfl
    exact applied_of_nextFrame hsound' (hheader ▸ hwidth) hrun'

set_option maxRecDepth 20000 in
/-- One row of two pixels, a frame that paints it white, and one that announces a byte too many. -/
theorem decoder_safe_twoPixels :
    ∃ d, (newChecked [0x42, 0x41, 0x56, 0x31, 2, 0, 1, 0, 1, 0, 1, 0, 2, 0, 0, 0,
        5, 1, 0, 2, 0, 2, 6, 1, 0, 1, 2]).run = some (.ok d) ∧
      ∃ results d', calls 2 d = some (results, d') ∧ results.length = 2 ∧
        results.countP isFrame ≤ d.header.frames ∧
        ∃ r d'', nextFrameChecked.runFrom d' = some (r, d'') ∧
          ∀ changed, r = .ok (true, changed) → Applied d' changed d'' := by
  have hsafe := decoder_safe [0x42, 0x41, 0x56, 0x31, 2, 0, 1, 0, 1, 0, 1, 0, 2, 0, 0, 0,
        5, 1, 0, 2, 0, 2, 6, 1, 0, 1, 2] (by simp)
  exact ⟨_, rfl, hsafe.2 _ rfl 2⟩

end Decoder

end SaeOS.Bav
