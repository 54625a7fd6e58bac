import Mathlib.Algebra.Group.Nat.Defs
import Mathlib.Data.List.Basic

/-!
# Computations that may panic

Code that runs with overflow and bounds checks: a computation panics, returns an error, or returns a
value. `Safe E x P` says that it does not panic, that its errors are of the kind `E` and its values of the
kind `P`, and is proved operation by operation.
-/

/-- Panics (`none`), or returns an error or a value. -/
abbrev Checked (ε α : Type) : Type :=
  ExceptT ε Option α

namespace Checked

variable {ε α β : Type}

def panics : Checked ε α :=
  ExceptT.mk none

/-- `a + b` in 64-bit words. -/
def addWord (a b : ℕ) : Checked ε ℕ :=
  if a + b < 2 ^ 64 then pure (a + b) else panics

/-- `a - b` in unsigned words. -/
def subWord (a b : ℕ) : Checked ε ℕ :=
  if b ≤ a then pure (a - b) else panics

/-- `a * b` in 64-bit words. -/
def mulWord (a b : ℕ) : Checked ε ℕ :=
  if a * b < 2 ^ 64 then pure (a * b) else panics

/-- `a % b`. -/
def remWord (a b : ℕ) : Checked ε ℕ :=
  if b = 0 then panics else pure (a % b)

/-- `items[i]`. -/
def index (items : List α) (i : ℕ) : Checked ε α :=
  match items[i]? with
  | some item => pure item
  | none => panics

/-- `items[start..stop]`. -/
def slice (items : List α) (start stop : ℕ) : Checked ε (List α) :=
  if start ≤ stop ∧ stop ≤ items.length then pure ((items.drop start).take (stop - start))
  else panics

/-- `items[start..start + source.len()].copy_from_slice(source)`. -/
def copyInto (items : List α) (start : ℕ) (source : List α) : Checked ε (List α) :=
  if start + source.length ≤ items.length then
    pure (items.take start ++ source ++ items.drop (start + source.length))
  else panics

/-- `items.get(start..stop)`, which does not panic. -/
def getRange (items : List α) (start stop : ℕ) : Option (List α) :=
  if start ≤ stop ∧ stop ≤ items.length then some ((items.drop start).take (stop - start)) else none

/-- `ok_or`. -/
def okOr (error : ε) : Option α → Checked ε α
  | some value => pure value
  | none => throw error

/-- Return the error where the condition holds. -/
def rejectIf (error : ε) (bad : Prop) [Decidable bad] : Checked ε Unit :=
  if bad then throw error else pure ()

/-- No panic, errors only of the kind `E`, and values only of the kind `P`. -/
def Safe (E : ε → Prop) (x : Checked ε α) (P : α → Prop) : Prop :=
  (∃ e, x.run = some (.error e) ∧ E e) ∨ ∃ a, x.run = some (.ok a) ∧ P a

variable {E : ε → Prop} {P Q : α → Prop} {x : Checked ε α}

/-- Copied items stand in the place of those that were there. -/
theorem getElem?_copied {items source : List α} {start : ℕ} (h : start + source.length ≤ items.length)
    (i : ℕ) : (items.take start ++ source ++ items.drop (start + source.length))[i]? =
      if start ≤ i ∧ i < start + source.length then source[i - start]? else items[i]? := by
  have hstart : (items.take start).length = start := by
    rw [List.length_take]
    omega
  rw [List.append_assoc]
  by_cases hbefore : i < start
  · rw [if_neg (by omega), List.getElem?_append_left (by omega), List.getElem?_take, if_pos hbefore]
  rw [List.getElem?_append_right (by omega), hstart]
  by_cases hin : i < start + source.length
  · rw [if_pos (by omega), List.getElem?_append_left (by omega)]
  · rw [if_neg (by omega), List.getElem?_append_right (by omega), List.getElem?_drop]
    congr 1
    omega

/-! ## What a safe computation returns -/

/-- Without errors to return, a safe computation succeeds. -/
theorem Safe.succeeds (h : Safe (fun _ => False) x P) : ∃ a, x.run = some (.ok a) ∧ P a :=
  h.resolve_left fun ⟨_, _, hfalse⟩ => hfalse

theorem Safe.mono (h : Safe E x P) (himp : ∀ a, P a → Q a) : Safe E x Q :=
  h.imp_right fun ⟨a, hrun, ha⟩ => ⟨a, hrun, himp a ha⟩

/-! ## Operations -/

theorem Safe.pure {a : α} (h : P a) : Safe E (pure a) P :=
  .inr ⟨a, rfl, h⟩

theorem Safe.throw {e : ε} (h : E e) : Safe E (throw e) P :=
  .inl ⟨e, rfl, h⟩

theorem Safe.bind {R : β → Prop} {f : α → Checked ε β} (hx : Safe E x P)
    (hf : ∀ a, P a → Safe E (f a) R) : Safe E (x >>= f) R := by
  have hbind : (x >>= f).run = x.run.bind fun | .ok a => (f a).run | .error e => some (.error e) := by
    change Option.bind _ _ = _
    congr 1
  rcases hx with ⟨e, hrun, he⟩ | ⟨a, hrun, ha⟩
  · rw [hrun] at hbind
    exact .inl ⟨e, hbind, he⟩
  · rw [hrun] at hbind
    unfold Safe
    rw [hbind]
    exact hf a ha

theorem Safe.addWord {a b : ℕ} (h : a + b < 2 ^ 64) : Safe E (addWord a b) (· = a + b) := by
  rw [Checked.addWord, if_pos h]
  exact .pure rfl

theorem Safe.subWord {a b : ℕ} (h : b ≤ a) : Safe E (subWord a b) (· = a - b) := by
  rw [Checked.subWord, if_pos h]
  exact .pure rfl

theorem Safe.mulWord {a b : ℕ} (h : a * b < 2 ^ 64) : Safe E (mulWord a b) (· = a * b) := by
  rw [Checked.mulWord, if_pos h]
  exact .pure rfl

theorem Safe.remWord {a b : ℕ} (h : b ≠ 0) : Safe E (remWord a b) (· = a % b) := by
  rw [Checked.remWord, if_neg h]
  exact .pure rfl

theorem Safe.index {items : List α} {i : ℕ} (h : i < items.length) :
    Safe E (index items i) (items[i]? = some ·) := by
  rw [Checked.index, List.getElem?_eq_getElem h]
  exact .pure rfl

theorem Safe.slice {items : List α} {start stop : ℕ} (hle : start ≤ stop) (hstop : stop ≤ items.length) :
    Safe E (slice items start stop) (· = (items.drop start).take (stop - start)) := by
  rw [Checked.slice, if_pos ⟨hle, hstop⟩]
  exact .pure rfl

theorem Safe.copyInto {items source : List α} {start : ℕ} (h : start + source.length ≤ items.length) :
    Safe E (copyInto items start source)
      (· = items.take start ++ source ++ items.drop (start + source.length)) := by
  rw [Checked.copyInto, if_pos h]
  exact .pure rfl

theorem Safe.okOr {e : ε} (he : E e) (value : Option α) : Safe E (okOr e value) (value = some ·) := by
  cases value with
  | none => exact .throw he
  | some value => exact .pure rfl

theorem Safe.rejectIf {e : ε} (he : E e) (bad : Prop) [Decidable bad] :
    Safe E (rejectIf e bad) fun _ => ¬bad := by
  unfold Checked.rejectIf
  split
  · exact .throw he
  · rename_i hgood
    exact .pure hgood

/-! ## Loops -/

/-- An invariant of the loop so far, `done`, holds of the whole loop. -/
theorem Safe.foldlM_upto (Inv : List α → β → Prop) {f : β → α → Checked ε β} {l : List α}
    (done : List α) {init : β} (hinit : Inv done init)
    (hstep : ∀ done b, ∀ a ∈ l, Inv done b → Safe E (f b a) (Inv (done ++ [a]))) :
    Safe E (l.foldlM f init) (Inv (done ++ l)) := by
  induction l generalizing done init with
  | nil =>
    rw [List.append_nil]
    exact .pure hinit
  | cons a l ih =>
    rw [List.foldlM_cons, List.append_cons]
    refine (hstep done init a List.mem_cons_self hinit).bind fun b hb => ?_
    exact ih _ hb fun done b a h => hstep done b a (List.mem_cons_of_mem _ h)

/-- An invariant of every round holds after the loop. -/
theorem Safe.foldlM {Inv : β → Prop} {f : β → α → Checked ε β} {l : List α} {init : β}
    (hinit : Inv init) (hstep : ∀ b, ∀ a ∈ l, Inv b → Safe E (f b a) Inv) :
    Safe E (l.foldlM f init) Inv :=
  foldlM_upto (fun _ => Inv) [] hinit fun _ => hstep

/-- `anyM` finds an item for which the test holds. -/
theorem Safe.anyM {test : α → Checked ε Bool} {good : α → Prop} {l : List α}
    (h : ∀ a ∈ l, Safe E (test a) fun b => b = true → good a) :
    Safe E (l.anyM test) fun b => b = true → ∃ a ∈ l, good a := by
  induction l with
  | nil => exact .pure (by simp)
  | cons a l ih =>
    rw [List.anyM]
    obtain ⟨ha, hl⟩ := List.forall_mem_cons.mp h
    refine ha.bind fun b hb => ?_
    cases b with
    | true => exact .pure fun _ => ⟨a, List.mem_cons_self, hb rfl⟩
    | false =>
      refine (ih hl).mono fun b hb htrue => ?_
      obtain ⟨a', hmem, hgood⟩ := hb htrue
      exact ⟨a', List.mem_cons_of_mem _ hmem, hgood⟩

/-- `anyM` decides whether there is an item, where the test decides about each. -/
theorem Safe.anyM_iff {test : α → Checked ε Bool} {good : α → Prop} {l : List α}
    (h : ∀ a ∈ l, Safe E (test a) fun b => b = true ↔ good a) :
    Safe E (l.anyM test) fun b => b = true ↔ ∃ a ∈ l, good a := by
  induction l with
  | nil => exact .pure ⟨(by simp), (by simp)⟩
  | cons a l ih =>
    rw [List.anyM]
    obtain ⟨ha, hl⟩ := List.forall_mem_cons.mp h
    refine ha.bind fun b hb => ?_
    cases b with
    | true => exact .pure ⟨fun _ => ⟨a, List.mem_cons_self, hb.mp rfl⟩, fun _ => rfl⟩
    | false =>
      refine (ih hl).mono fun b' hb' => ?_
      have hbad : ¬ good a := fun hgood => Bool.false_ne_true (hb.mpr hgood)
      rw [hb', List.exists_mem_cons_iff, or_iff_right hbad]

/-- `allM` decides whether every item is good. -/
theorem Safe.allM_iff {test : α → Checked ε Bool} {good : α → Prop} {l : List α}
    (h : ∀ a ∈ l, Safe E (test a) fun b => b = true ↔ good a) :
    Safe E (l.allM test) fun b => b = true ↔ ∀ a ∈ l, good a := by
  induction l with
  | nil => exact .pure ⟨fun _ => (by simp), fun _ => rfl⟩
  | cons a l ih =>
    rw [List.allM]
    obtain ⟨ha, hl⟩ := List.forall_mem_cons.mp h
    refine ha.bind fun b hb => ?_
    cases b with
    | true =>
      refine (ih hl).mono fun b' hb' => ?_
      rw [hb', List.forall_mem_cons, and_iff_right (hb.mp rfl)]
    | false =>
      refine .pure ⟨(by simp), fun hall => ?_⟩
      exact absurd (hb.mpr (hall a List.mem_cons_self)) Bool.false_ne_true

/-- `findM?` finds an item for which the test holds. -/
theorem Safe.findM? {test : α → Checked ε Bool} {good : α → Prop} {l : List α}
    (h : ∀ a ∈ l, Safe E (test a) fun b => b = true → good a) :
    Safe E (l.findM? test) fun found => ∀ a, found = some a → a ∈ l ∧ good a := by
  induction l with
  | nil => exact .pure (by simp)
  | cons a l ih =>
    rw [List.findM?]
    obtain ⟨ha, hl⟩ := List.forall_mem_cons.mp h
    refine ha.bind fun b hb => ?_
    cases b with
    | true =>
      refine .pure fun a' heq => ?_
      obtain rfl := Option.some.inj heq
      exact ⟨List.mem_cons_self, hb rfl⟩
    | false =>
      refine (ih hl).mono fun found hfound a' heq => ?_
      obtain ⟨hmem, hgood⟩ := hfound a' heq
      exact ⟨List.mem_cons_of_mem _ hmem, hgood⟩

end Checked
