import SaeOS.Backtrace

/-!
# What a backtrace reads

A round of either walk succeeds, which is to say that it reads mapped bytes only and that no
addition overflows, under a condition on the registers it starts with. A whole walk succeeds if the
condition holds in each state that it reaches.
-/

namespace SaeOS.Backtrace

open Reading

variable {memory : ℕ → UInt8} {pages : ℕ → Bool} {α β : Type}

/-! ## Operations -/

/-- A computation that neither stops at a byte nor overflows. -/
def Succeeds (r : Except ReadStop α) : Prop :=
  ∃ value, r = .ok value

theorem succeeds_ok (value : α) : Succeeds (.ok value : Except ReadStop α) :=
  ⟨value, rfl⟩

theorem succeeds_pure (value : α) (readable : ℕ → Bool) :
    Succeeds ((pure value : Reading α) readable) :=
  ⟨value, rfl⟩

theorem succeeds_bind {x : Reading α} {f : α → Reading β} {readable : ℕ → Bool}
    (hx : Succeeds (x readable))
    (hf : ∀ value, Succeeds (f value readable)) : Succeeds ((x >>= f) readable) := by
  obtain ⟨value, hvalue⟩ := hx
  rw [bind_apply, hvalue]
  exact hf value

theorem succeeds_bind_iff {x : Reading α} {f : α → Reading β} {readable : ℕ → Bool}
    (hf : ∀ value, Succeeds (f value readable)) :
    Succeeds ((x >>= f) readable) ↔ Succeeds (x readable) := by
  refine ⟨fun h => ?_, fun h => succeeds_bind h hf⟩
  rw [bind_apply] at h
  rcases hx : x readable with e | value
  · rw [hx] at h
    obtain ⟨_, hr⟩ := h
    contradiction
  · exact succeeds_ok value

theorem succeeds_add_bind {a b : ℕ} {f : ℕ → Reading β} {readable : ℕ → Bool} :
    Succeeds ((add a b >>= f) readable) ↔ a + b < 2 ^ 64 ∧ Succeeds (f (a + b) readable) := by
  rw [bind_apply, add]
  by_cases h : a + b < 2 ^ 64
  · rw [if_pos h, and_iff_right h]
    rfl
  · rw [if_neg h]
    exact ⟨fun ⟨_, hr⟩ => (by cases hr), fun hin => absurd hin.1 h⟩

theorem succeeds_readWord_bind {a : ℕ} {f : ℕ → Reading β} {readable : ℕ → Bool} :
    Succeeds ((readWord memory a >>= f) readable) ↔
      Covers readable (span a 8) ∧ Succeeds (f (numberAt memory a 8) readable) := by
  have hexact := Exact.number memory a 8
  rw [bind_apply, readWord]
  by_cases h : Covers readable (span a 8)
  · rw [hexact.covered readable h, and_iff_right h]
    rfl
  · obtain ⟨b, -, heq⟩ := hexact.uncovered readable h
    rw [heq]
    exact ⟨fun ⟨_, hr⟩ => (by cases hr), fun hin => absurd hin.1 h⟩

theorem isReadable_bind (a : ℕ) (f : Bool → Reading β) :
    (isReadable a >>= f) (mappedBytes pages) = f (mappedBytes pages a) (mappedBytes pages) := by
  have hpage : mappedBytes pages (a / 2 ^ 12 * 2 ^ 12) = mappedBytes pages a := by
    rw [mappedBytes, Nat.mul_div_cancel _ (by decide), mappedBytes]
  rw [bind_apply, isReadable, hpage]
  rfl

/-! ## Mapped bytes -/

/-- A byte is mapped with another one of its page. -/
theorem mappedBytes_of_page {a b : ℕ} (h : mappedBytes pages a = true)
    (hpage : b / 2 ^ 12 = a / 2 ^ 12) :
    mappedBytes pages b = true := by
  rw [mappedBytes, hpage]
  exact h

/-- An aligned word is in one page. -/
theorem covers_aligned {a : ℕ} (haligned : a % 8 = 0) (h : mappedBytes pages a = true) :
    Covers (mappedBytes pages) (span a 8) := by
  intro b hb
  rw [mem_span] at hb
  exact mappedBytes_of_page h (by omega)

/-- Bytes between two that are less than a page apart are in the page of one of them. -/
theorem covers_between {a n : ℕ} (hn : n ≤ 2 ^ 12) (h : mappedBytes pages a = true)
    (hlast : mappedBytes pages (a + n) = true) : Covers (mappedBytes pages) (span a n) := by
  intro b hb
  rw [mem_span] at hb
  rcases Nat.lt_or_ge (b / 2 ^ 12) ((a + n) / 2 ^ 12) with hbefore | hsame
  · exact mappedBytes_of_page h (by omega)
  · exact mappedBytes_of_page hlast (by omega)

/-! ## Interrupt frames -/

/-- With the slot and the byte 64 further on mapped, looking for an interrupt frame succeeds. -/
theorem machineFrame_succeeds {slot : ℕ} (isCode : ℕ → Bool) {readable : ℕ → Bool}
    (hslot : slot + 64 < 2 ^ 64)
    (hcovers : Covers readable (span slot 64)) :
    Succeeds (machineFrame memory isCode slot readable) := by
  have hwords : ∀ words : List ℕ, (∀ word ∈ words, word ≤ 3) →
      Succeeds (machineFrameFrom memory isCode slot words readable) := by
    intro words
    induction words with
    | nil => exact fun _ => succeeds_pure _ _
    | cons word words ih =>
      intro hle
      have hword : word ≤ 3 := hle word List.mem_cons_self
      have hread : ∀ offset, word * 8 + offset + 8 ≤ 64 →
          Covers readable (span (slot + word * 8 + offset) 8) := by
        intro offset hoffset
        exact hcovers.mono (span_subset (by omega) (by omega))
      rw [machineFrameFrom]
      simp only [succeeds_add_bind, succeeds_readWord_bind]
      refine ⟨by omega, hread 0 (by omega), by omega, hread 8 (by omega), by omega,
        hread 16 (by omega), by omega,
        hread 24 (by omega), by omega, hread 32 (by omega), ?_⟩
      split
      · exact succeeds_pure _ _
      · exact ih fun w hw => hle w (List.mem_cons_of_mem _ hw)
  exact hwords [0, 1, 2, 3] (by decide)

/-! ## Frame pointers -/

/-- A frame that the walk reads. -/
def FrameOk (pages : ℕ → Bool) (rbp : ℕ) : Prop :=
  (rbp % 8 = 0 ∧ directMapBase ≤ rbp ∧ rbp + 16 < 2 ^ 64) ∧ mappedBytes pages rbp = true ∧
    mappedBytes pages (rbp + 8) = true

theorem frameOk_eq_true {rbp : ℕ} (h : FrameOk pages rbp) :
    frameOk rbp (mappedBytes pages) = .ok true := by
  obtain ⟨hrbp, hfirst, hsecond⟩ := h
  have hadd : rbp + 8 < 2 ^ 64 := by omega
  rw [frameOk, if_pos hrbp, isReadable_bind, hfirst, if_pos rfl, add, if_pos hadd, pure_bind]
  rw [← bind_pure (isReadable (rbp + 8)), isReadable_bind, hsecond]
  rfl

theorem frameOk_eq_false {rbp : ℕ} (h : ¬ FrameOk pages rbp) :
    frameOk rbp (mappedBytes pages) = .ok false := by
  unfold frameOk
  by_cases hrbp : rbp % 8 = 0 ∧ directMapBase ≤ rbp ∧ rbp + 16 < 2 ^ 64
  · rw [if_pos hrbp, isReadable_bind]
    cases hfirst : mappedBytes pages rbp with
    | false => rfl
    | true =>
      have hadd : rbp + 8 < 2 ^ 64 := by omega
      have hsecond : mappedBytes pages (rbp + 8) = false := by
        by_contra hyes
        exact h ⟨hrbp, hfirst, Bool.eq_true_of_not_eq_false hyes⟩
      rw [if_pos rfl, add, if_pos hadd, pure_bind]
      rw [← bind_pure (isReadable (rbp + 8)), isReadable_bind, hsecond]
      rfl
  · rw [if_neg hrbp]
    rfl

/-- The frame is not one of the last words of the address space. -/
def FrameFits (pages : ℕ → Bool) (s : Frame) : Prop :=
  s.visited.length < maxFrames → FrameOk pages s.rbp → s.rbp + 72 < 2 ^ 64

theorem follow_succeeds (s : Frame) (next : ℕ) (hend : s.rbp + 8 < 2 ^ 64)
    (hcovers : Covers (mappedBytes pages) (span (s.rbp + 8) 8)) (interrupted : Option (ℕ × ℕ)) :
    Succeeds (follow memory s next interrupted (mappedBytes pages)) := by
  cases interrupted with
  | some frame => exact succeeds_pure _ _
  | none =>
    rw [follow, succeeds_add_bind, succeeds_readWord_bind]
    refine ⟨hend, hcovers, ?_⟩
    split
    · exact succeeds_pure _ _
    · exact succeeds_pure _ _

/-- A round of the walk succeeds unless its frame is one of the last words. -/
theorem walkStep_succeeds_iff (s : Frame) :
    Succeeds (walkStep memory s (mappedBytes pages)) ↔ FrameFits pages s := by
  unfold walkStep FrameFits
  by_cases hfull : maxFrames ≤ s.visited.length
  · rw [if_pos hfull]
    exact ⟨fun _ hlt => absurd hfull (Nat.not_le.mpr hlt), fun _ => succeeds_pure _ _⟩
  rw [if_neg hfull, bind_apply]
  by_cases hframe : FrameOk pages s.rbp
  · rw [frameOk_eq_true hframe]
    obtain ⟨⟨haligned, hupper, hend⟩, hfirst, hsecond⟩ := hframe
    dsimp only [Except.bind]
    rw [if_neg (by decide)]
    have hword := covers_aligned haligned hfirst
    rw [succeeds_readWord_bind, succeeds_add_bind, succeeds_add_bind, and_iff_right hword]
    constructor
    · rintro ⟨-, hfits, -⟩ - -
      omega
    · intro h
      have hfits : s.rbp + 72 < 2 ^ 64 :=
        h (Nat.not_le.mp hfull) ⟨⟨haligned, hupper, hend⟩, hfirst, hsecond⟩
      have hfollow : ∀ interrupted,
          Succeeds (follow memory s (numberAt memory s.rbp 8) interrupted (mappedBytes pages)) :=
        follow_succeeds s _ (by omega) (covers_aligned (by omega) hsecond)
      refine ⟨by omega, by omega, ?_⟩
      rw [isReadable_bind]
      split
      · rename_i hlast
        exact succeeds_bind (machineFrame_succeeds _ (by omega)
          (covers_between (by decide) hsecond hlast)) hfollow
      · rw [pure_bind]
        exact hfollow none
  · rw [frameOk_eq_false hframe]
    exact ⟨fun _ _ h => absurd h hframe, fun _ => succeeds_pure _ _⟩

/-! ## Unwind tables -/

/-- Undoing the operations from a code on: the words that are popped into RBP are mapped if their
first bytes are, and the stack pointer does not overflow. -/
def UndoFits (pages : ℕ → Bool) (info : UnwindInfo) (index rsp : ℕ) : Prop :=
  if index < info.codeCount then
    match info.moved index with
    | none => True
    | some bytes =>
      info.pushesRbp index = true ∧ mappedBytes pages rsp = false ∨
        (info.pushesRbp index = true → Covers (mappedBytes pages) (span rsp 8)) ∧
          rsp + bytes < 2 ^ 64 ∧
          UndoFits pages info (index + info.slots index) (rsp + bytes)
  else True
termination_by info.codeCount - index
decreasing_by
  have := info.slots_pos index
  omega

theorem undoFrom_succeeds_iff (info : UnwindInfo) {index rsp : ℕ} {saved : Option ℕ} :
    Succeeds (undoFrom memory info index rsp saved (mappedBytes pages)) ↔
      UndoFits pages info index rsp := by
  induction hleft : info.codeCount - index using Nat.strong_induction_on generalizing index
    rsp saved with
  | _ left ih =>
    have hslots := info.slots_pos index
    rw [undoFrom, UndoFits]
    by_cases hin : index < info.codeCount
    · rw [if_pos hin, if_pos hin]
      cases hmoved : info.moved index with
      | none => exact ⟨fun _ => trivial, fun _ => succeeds_pure _ _⟩
      | some bytes =>
        dsimp only
        rw [isReadable_bind]
        have hrest : ∀ saved, Succeeds ((add rsp bytes >>= fun rsp =>
            undoFrom memory info (index + info.slots index) rsp saved) (mappedBytes pages)) ↔
            rsp + bytes < 2 ^ 64 ∧ UndoFits pages info (index + info.slots index)
              (rsp + bytes) := by
          intro saved
          rw [succeeds_add_bind]
          exact and_congr_right fun _ => ih _ (by omega) rfl
        by_cases hpush : info.pushesRbp index = true
        · by_cases hmapped : mappedBytes pages rsp = false
          · rw [if_pos ⟨hpush, hmapped⟩]
            exact ⟨fun _ => .inl ⟨hpush, hmapped⟩, fun _ => succeeds_pure _ _⟩
          · rw [if_neg fun h => hmapped h.2, if_pos hpush, bind_map_left,
              succeeds_readWord_bind, hrest,
              or_iff_right fun h => hmapped h.2]
            exact and_congr_left fun _ => ⟨fun h _ => h, fun h => h hpush⟩
        · rw [if_neg fun h => hpush h.1, if_neg hpush, pure_bind, hrest,
            or_iff_right fun h => hpush h.1,
            and_iff_right fun h => absurd h hpush]
    · rw [if_neg hin, if_neg hin]
      exact ⟨fun _ => trivial, fun _ => succeeds_pure _ _⟩

/-- Scanning for a return address: the words that are read are mapped if their first bytes are, and
the address of each word that is looked at does not overflow. -/
def ScanFits (memory : ℕ → UInt8) (image : Image) (pages : ℕ → Bool) (rsp : ℕ) : List ℕ → Prop
  | [] => True
  | word :: words =>
    rsp + word * 8 < 2 ^ 64 ∧
      (mappedBytes pages (rsp + word * 8) = true →
        Covers (mappedBytes pages) (span (rsp + word * 8) 8)) ∧
      (mappedBytes pages (rsp + word * 8) = true ∧
        image.isReturn (numberAt memory (rsp + word * 8) 8) = true ∨
        ScanFits memory image pages rsp words)

theorem scanFrom_succeeds_iff {image : Image} {rsp : ℕ} {words : List ℕ} :
    Succeeds (scanFrom memory image rsp words (mappedBytes pages)) ↔
      ScanFits memory image pages rsp words := by
  induction words with
  | nil => exact ⟨fun _ => trivial, fun _ => succeeds_pure _ _⟩
  | cons word words ih =>
    rw [scanFrom, ScanFits, succeeds_add_bind, isReadable_bind]
    refine and_congr_right fun _ => ?_
    by_cases hmapped : mappedBytes pages (rsp + word * 8) = true
    · rw [if_pos hmapped, succeeds_readWord_bind]
      have hword : (mappedBytes pages (rsp + word * 8) = true →
          Covers (mappedBytes pages) (span (rsp + word * 8) 8)) ↔
          Covers (mappedBytes pages) (span (rsp + word * 8) 8) := ⟨fun h => h hmapped, fun h _ => h⟩
      rw [hword]
      refine and_congr_right fun _ => ?_
      split
      · rename_i hreturn
        exact ⟨fun _ => .inl ⟨hmapped, hreturn⟩, fun _ => succeeds_pure _ _⟩
      · rename_i hother
        rw [ih, or_iff_right fun h => hother h.2]
    · rw [if_neg hmapped, ih, and_iff_right fun h => absurd h hmapped,
        or_iff_right fun h => hmapped h.1]

/-- The slot of a return address is not one of the last words of the address space. -/
def SlotFits (pages : ℕ → Bool) (slot : ℕ) : Prop :=
  directMapBase ≤ slot → mappedBytes pages slot = true → slot + 64 < 2 ^ 64

theorem visitSlot_succeeds_iff {image : Image} (s : Registers) {slot : ℕ} {saved : Option ℕ}
    {trusted : Bool} :
    Succeeds (visitSlot memory image s slot saved trusted (mappedBytes pages)) ↔
      SlotFits pages slot := by
  unfold visitSlot SlotFits
  by_cases hlow : slot < directMapBase
  · rw [if_pos hlow]
    exact ⟨fun _ hle => absurd hlow (Nat.not_lt.mpr hle), fun _ => succeeds_pure _ _⟩
  rw [if_neg hlow, isReadable_bind]
  cases hmapped : mappedBytes pages slot with
  | false => exact ⟨fun _ _ h => absurd h Bool.false_ne_true, fun _ => succeeds_pure _ _⟩
  | true =>
    rw [if_neg (by decide), succeeds_add_bind, isReadable_bind]
    constructor
    · exact fun h _ _ => h.1
    · intro h
      have hfits := h (Nat.not_lt.mp hlow) rfl
      refine ⟨hfits, ?_⟩
      cases hlast : mappedBytes pages (slot + 64) with
      | false => exact succeeds_pure _ _
      | true =>
        have hcovers : Covers (mappedBytes pages) (span slot 64) :=
          covers_between (by decide) hmapped hlast
        rw [if_neg (by decide)]
        refine succeeds_bind (machineFrame_succeeds _ hfits hcovers) fun frame => ?_
        have hcaller : Succeeds (callerOf memory slot frame (mappedBytes pages)) := by
          cases frame with
          | some frame => exact succeeds_pure _ _
          | none =>
            rw [callerOf, succeeds_readWord_bind, succeeds_add_bind]
            exact ⟨hcovers.mono (span_subset le_rfl (by omega)), by omega, succeeds_pure _ _⟩
        refine succeeds_bind hcaller fun ⟨caller, callerRsp⟩ => ?_
        dsimp only
        split
        · exact succeeds_pure _ _
        · exact succeeds_pure _ _

/-- Finding the slot of the return address reads mapped words and does not overflow. -/
def CallerFits (memory : ℕ → UInt8) (image : Image) (pages : ℕ → Bool) (s : Registers) : Prop :=
  match image.unwindInfo s.rip with
  | some info => ∀ start ∈ undoStart info s.rsp s.rbp s.trusted, UndoFits pages info start.1 start.2
  | none =>
    directMapBase ≤ s.rsp → mappedBytes pages s.rsp = true →
      ScanFits memory image pages s.rsp (List.range 256)

theorem unwind_succeeds_iff {info : UnwindInfo} {rsp rbp : ℕ} {trusted : Bool} :
    Succeeds (unwind memory info rsp rbp trusted (mappedBytes pages)) ↔
      ∀ start ∈ undoStart info rsp rbp trusted, UndoFits pages info start.1 start.2 := by
  rw [unwind]
  cases hstart : undoStart info rsp rbp trusted with
  | none => exact ⟨fun _ => (by simp), fun _ => succeeds_pure _ _⟩
  | some start =>
    refine (undoFrom_succeeds_iff info).trans ⟨?_, fun h => h start rfl⟩
    rintro h _ ⟨⟩
    exact h

theorem callerSlot_succeeds_iff {image : Image} (s : Registers) :
    Succeeds (callerSlot memory image s (mappedBytes pages)) ↔ CallerFits memory image pages s := by
  unfold callerSlot CallerFits
  cases hinfo : image.unwindInfo s.rip with
  | some info =>
    refine (succeeds_bind_iff fun found => ?_).trans unwind_succeeds_iff
    cases found with
    | none => exact succeeds_pure _ _
    | some found => exact succeeds_pure _ _
  | none =>
    dsimp only
    by_cases hlow : s.rsp < directMapBase
    · rw [if_pos hlow]
      exact ⟨fun _ hle => absurd hlow (Nat.not_lt.mpr hle), fun _ => succeeds_pure _ _⟩
    rw [if_neg hlow, isReadable_bind]
    cases hmapped : mappedBytes pages s.rsp with
    | false => exact ⟨fun _ _ h => absurd h Bool.false_ne_true, fun _ => succeeds_pure _ _⟩
    | true =>
      rw [if_neg (by decide)]
      have hscan : Succeeds (scanForReturn memory image s.rsp (mappedBytes pages)) ↔
          ScanFits memory image pages s.rsp (List.range 256) := scanFrom_succeeds_iff
      refine ((succeeds_bind_iff fun found => ?_).trans hscan).trans ⟨fun h _ _ => h,
        fun h => h (Nat.not_lt.mp hlow) rfl⟩
      cases found with
      | none => exact succeeds_pure _ _
      | some slot => exact succeeds_pure _ _

/-- The registers that a round starts with do not lead to the end of the address space or to a word
that is only partly mapped. -/
structure RegistersFit (memory : ℕ → UInt8) (image : Image) (pages : ℕ → Bool) (s : Registers) :
    Prop where
  caller : CallerFits memory image pages s
  slot : ∀ found, callerSlot memory image s (mappedBytes pages) = .ok (some found) →
    SlotFits pages found.1

/-- A round of the walk with unwind tables succeeds exactly if its registers fit. -/
theorem unwindStep_succeeds_iff {image : Image} (s : Registers) :
    Succeeds (unwindStep memory image s (mappedBytes pages)) ↔
      RegistersFit memory image pages s := by
  have hcaller : Succeeds (callerSlot memory image s (mappedBytes pages)) ↔
    CallerFits memory image pages s :=
    callerSlot_succeeds_iff s
  unfold unwindStep
  rw [bind_apply]
  rcases hfound : callerSlot memory image s (mappedBytes pages) with e | found
  · constructor
    · exact fun ⟨_, hr⟩ => (by cases hr)
    · intro h
      obtain ⟨_, hr⟩ := hcaller.mpr h.caller
      exact absurd (hfound.symm.trans hr) (by simp)
  · have hfits := hcaller.mp ⟨found, hfound⟩
    cases found with
    | none =>
      refine ⟨fun _ => ⟨hfits, fun found h => ?_⟩, fun _ => succeeds_pure _ _⟩
      exact absurd (hfound.symm.trans h) (by simp)
    | some found =>
      obtain ⟨slot, saved, trusted⟩ := found
      refine (visitSlot_succeeds_iff s).trans ⟨fun h => ⟨hfits, fun found' h' => ?_⟩,
        fun h => h.slot _ hfound⟩
      obtain rfl := Option.some.inj (Except.ok.inj (hfound.symm.trans h'))
      exact h

/-! ## Whole walks -/

/-- A walk reads mapped bytes only, does not overflow, and visits at most 32 addresses. -/
def Safe (visited : Except ReadStop (List ℕ)) : Prop :=
  ∃ addresses, visited = .ok addresses ∧ addresses.length ≤ maxFrames

theorem of_bind_ok {x : Reading α} {f : α → Reading β} {readable : ℕ → Bool} {r : β}
    (h : (x >>= f) readable = .ok r) :
    ∃ value, x readable = .ok value ∧ f value readable = .ok r := by
  rw [bind_apply] at h
  rcases hx : x readable with e | value
  · rw [hx] at h
    contradiction
  · rw [hx] at h
    exact ⟨value, rfl, h⟩

theorem of_pure_ok {value r : α} {readable : ℕ → Bool}
    (h : (pure value : Reading α) readable = .ok r) :
    r = value :=
  (Except.ok.inj h).symm

theorem length_append_le {l : List ℕ} (h : ¬ maxFrames ≤ l.length) (a : ℕ) :
    (l ++ [a]).length ≤ maxFrames := by
  rw [List.length_append, List.length_singleton]
  omega

/-- A round of the walk visits one address at most, and none when there are 32. -/
theorem walkStep_visited {s : Frame} {readable : ℕ → Bool} {r : Frame ⊕ List ℕ}
    (hs : s.visited.length ≤ maxFrames)
    (h : walkStep memory s readable = .ok r) :
    (Sum.elim Frame.visited id r).length ≤ maxFrames := by
  unfold walkStep at h
  by_cases hfull : maxFrames ≤ s.visited.length
  · rw [if_pos hfull] at h
    rw [of_pure_ok h]
    exact hs
  rw [if_neg hfull] at h
  obtain ⟨ok, -, h⟩ := of_bind_ok h
  split at h
  · rw [of_pure_ok h]
    exact hs
  obtain ⟨next, -, h⟩ := of_bind_ok h
  obtain ⟨slot, -, h⟩ := of_bind_ok h
  obtain ⟨last, -, h⟩ := of_bind_ok h
  obtain ⟨mapped, -, h⟩ := of_bind_ok h
  have hfollow : ∃ interrupted, follow memory s next interrupted readable = .ok r := by
    split at h
    · obtain ⟨interrupted, -, h⟩ := of_bind_ok h
      exact ⟨interrupted, h⟩
    · obtain ⟨interrupted, -, h⟩ := of_bind_ok h
      exact ⟨interrupted, h⟩
  obtain ⟨interrupted, h⟩ := hfollow
  cases interrupted with
  | some frame =>
    rw [of_pure_ok h]
    exact length_append_le hfull _
  | none =>
    rw [follow] at h
    obtain ⟨slot, -, h⟩ := of_bind_ok h
    obtain ⟨returnAddress, -, h⟩ := of_bind_ok h
    have hvisited : (if kernelImageBase ≤ returnAddress then s.visited ++ [returnAddress]
      else s.visited).length ≤
        maxFrames := by
      split
      · exact length_append_le hfull _
      · exact hs
    dsimp only at h
    by_cases hup : next ≤ s.rbp
    · rw [if_pos hup] at h
      rw [of_pure_ok h]
      exact hvisited
    · rw [if_neg hup] at h
      rw [of_pure_ok h]
      exact hvisited

/-- A round of the walk with unwind tables visits one address at most. -/
theorem unwindStep_visited {image : Image} {s : Registers} {readable : ℕ → Bool}
    {r : Registers ⊕ List ℕ}
    (h : unwindStep memory image s readable = .ok r) :
    (Sum.elim Registers.visited id r).length ≤ s.visited.length + r.isLeft.toNat := by
  unfold unwindStep at h
  obtain ⟨found, -, h⟩ := of_bind_ok h
  cases found with
  | none =>
    rw [of_pure_ok h]
    exact Nat.le_refl _
  | some found =>
    obtain ⟨slot, saved, trusted⟩ := found
    dsimp only at h
    unfold visitSlot at h
    split at h
    · rw [of_pure_ok h]
      exact Nat.le_refl _
    obtain ⟨mapped, -, h⟩ := of_bind_ok h
    split at h
    · rw [of_pure_ok h]
      exact Nat.le_refl _
    obtain ⟨last, -, h⟩ := of_bind_ok h
    obtain ⟨mappedLast, -, h⟩ := of_bind_ok h
    split at h
    · rw [of_pure_ok h]
      exact Nat.le_refl _
    obtain ⟨frame, -, h⟩ := of_bind_ok h
    obtain ⟨⟨caller, callerRsp⟩, -, h⟩ := of_bind_ok h
    dsimp only at h
    split at h
    · rw [of_pure_ok h]
      exact Nat.le_refl _
    · rw [of_pure_ok h]
      exact (List.length_append).le

theorem map_ok_iff {r : Except ReadStop α} {f : α → β} {b : β} :
    r.map f = .ok b ↔ ∃ a, r = .ok a ∧ f a = b := by
  cases r with
  | error e => exact ⟨fun h => (by cases h), fun ⟨_, h, _⟩ => (by cases h)⟩
  | ok a =>
    constructor
    · exact fun h => ⟨a, rfl, Except.ok.inj h⟩
    · rintro ⟨_, ⟨⟩, rfl⟩
      rfl

/-- The walk along the frame pointers is safe exactly if no frame that it reaches is at the end of
the address space. -/
theorem walk_safe_iff (memory : ℕ → UInt8) (pages : ℕ → Bool) (rbp : ℕ) :
    Safe (walk memory pages rbp) ↔
      ∀ s ∈ Rounds.reached (fun s => walkStep memory s (mappedBytes pages)) (maxFrames * 2) { rbp },
        FrameFits pages s := by
  have hrun := Rounds.run_ok_iff (fun s => walkStep memory s (mappedBytes pages))
    (maxFrames * 2) { rbp }
  have hsteps : (∀ s ∈ Rounds.reached (fun s => walkStep memory s (mappedBytes pages))
    (maxFrames * 2) { rbp },
      FrameFits pages s) ↔ ∃ r, Rounds.run (fun s => walkStep memory s (mappedBytes pages))
        (maxFrames * 2) { rbp } =
        .ok r :=
    (forall₂_congr fun s _ => (walkStep_succeeds_iff s).symm).trans hrun.symm
  rw [hsteps]
  constructor
  · rintro ⟨addresses, hok, -⟩
    obtain ⟨r, hr, -⟩ := map_ok_iff.mp hok
    exact ⟨r, hr⟩
  · rintro ⟨r, hr⟩
    refine ⟨_, map_ok_iff.mpr ⟨r, hr, rfl⟩, ?_⟩
    have hkept := Rounds.run_invariant (P := fun s : Frame => s.visited.length ≤ maxFrames)
      (Q := fun l : List ℕ => l.length ≤ maxFrames) (fun s hs s' h => walkStep_visited hs h)
      (fun s hs l h => walkStep_visited hs h) (Nat.zero_le _) hr
    cases r with
    | inl s => exact hkept
    | inr l => exact hkept

/-- Every round visits one address, so that as many are visited as there have been rounds at
most. -/
theorem unwindRun_visited {image : Image} {readable : ℕ → Bool} {n : ℕ} {s : Registers}
    {r : Registers ⊕ List ℕ} (h : Rounds.run (fun s => unwindStep memory image s readable) n
      s = .ok r) :
    (Sum.elim Registers.visited id r).length ≤ s.visited.length + n := by
  induction n generalizing s with
  | zero =>
    obtain rfl := Except.ok.inj h
    exact Nat.le_refl _
  | succ n ih =>
    rw [Rounds.run] at h
    rcases hnext : unwindStep memory image s readable with e | s' | l
    · rw [hnext] at h
      contradiction
    · rw [hnext] at h
      have hstep : s'.visited.length ≤ s.visited.length + 1 := unwindStep_visited hnext
      exact (ih h).trans (by omega)
    · rw [hnext] at h
      obtain rfl := Except.ok.inj h
      have hstep : l.length ≤ s.visited.length + 0 := unwindStep_visited hnext
      exact hstep.trans (by omega)

/-- The walk with unwind tables is safe exactly if the registers that it reaches fit. -/
theorem unwindWalk_safe_iff (memory : ℕ → UInt8) (image : Image) (pages : ℕ → Bool)
    (rip rsp rbp : ℕ) :
    Safe (unwindWalk memory image pages rip rsp rbp) ↔
      ∀ s ∈ Rounds.reached (fun s => unwindStep memory image s (mappedBytes pages)) maxFrames
        { rip, rsp, rbp },
        RegistersFit memory image pages s := by
  have hrun := Rounds.run_ok_iff (fun s => unwindStep memory image s (mappedBytes pages)) maxFrames
    { rip, rsp, rbp }
  have hsteps : (∀ s ∈ Rounds.reached
    (fun s => unwindStep memory image s (mappedBytes pages)) maxFrames
      { rip, rsp, rbp }, RegistersFit memory image pages s) ↔
      ∃ r, Rounds.run (fun s => unwindStep memory image s (mappedBytes pages)) maxFrames
        { rip, rsp, rbp } = .ok r :=
    (forall₂_congr fun s _ => (unwindStep_succeeds_iff s).symm).trans hrun.symm
  rw [hsteps]
  constructor
  · rintro ⟨addresses, hok, -⟩
    obtain ⟨r, hr, -⟩ := map_ok_iff.mp hok
    exact ⟨r, hr⟩
  · rintro ⟨r, hr⟩
    refine ⟨_, map_ok_iff.mpr ⟨r, hr, rfl⟩, ?_⟩
    exact (unwindRun_visited hr).trans (Nat.zero_add _).le

/-- Both walks. -/
theorem backtraces_safe_iff (memory : ℕ → UInt8) (image : Image) (pages : ℕ → Bool)
    (rip rsp rbp : ℕ) :
    (Safe (walk memory pages rbp) ∧ Safe (unwindWalk memory image pages rip rsp rbp)) ↔
      (∀ s ∈ Rounds.reached (fun s => walkStep memory s (mappedBytes pages))
        (maxFrames * 2) { rbp },
        FrameFits pages s) ∧
      ∀ s ∈ Rounds.reached (fun s => unwindStep memory image s (mappedBytes pages)) maxFrames
        { rip, rsp, rbp },
        RegistersFit memory image pages s :=
  and_congr (walk_safe_iff memory pages rbp) (unwindWalk_safe_iff memory image pages rip rsp rbp)

/-! ## Walks that are not safe -/

/-- An image of which nothing has unwind information. -/
def bareImage : Image where
  count := 0
  function _ := ⟨0, 0, ⟨0, 0, 0, 0, fun _ => 0⟩⟩
  byte _ := 0

/-- A frame pointer in the last page of the address space leads beyond it, and a word over the end
of a mapped page is read. -/
theorem walks_unsafe :
    ¬ Safe (walk (fun _ => 0) (fun _ => true) 0xffffffffffffffe8) ∧
      ¬ Safe (unwindWalk (fun _ => 0) bareImage (fun page => page = 0xffff800000000) 0
        0xffff800000000ffc 0) := by
  constructor
  · intro h
    have hfits := (walk_safe_iff _ _ _).mp h { rbp := 0xffffffffffffffe8 } List.mem_cons_self
    refine absurd (hfits (by decide) ⟨by decide, rfl, rfl⟩) (by decide)
  · intro h
    have hfits := (unwindWalk_safe_iff _ _ _ _ _ _).mp h
      { rip := 0, rsp := 0xffff800000000ffc, rbp := 0 } List.mem_cons_self
    have hscan := hfits.caller (by decide) (by decide)
    rw [List.range_eq_range', List.range'_succ] at hscan
    -- the fifth byte of the first word is on the next page
    have hword := hscan.2.1 (by decide) 0xffff800000001000 (mem_span.mpr ⟨by decide, by decide⟩)
    exact absurd hword (by decide)

end SaeOS.Backtrace
