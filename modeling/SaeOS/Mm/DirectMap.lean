import Mathlib.Algebra.Group.Nat.Defs
import Mathlib.Data.Nat.Basic
import Mathlib.Logic.Function.Basic
import Mathlib.Tactic.Common

/-!
# The direct map

`map_page` of `mm/paging.rs` on the window in which physical memory is mapped: the kernel's tables from the page
directory pointers down, where a slot holds nothing, a huge page or a table. Every slot of the upper half of the
root table has had a table since boot. Of an entry this keeps whether it is present, which is what a read needs.

Addresses are physical; a virtual address is `KERNEL_VIRT_BASE` more.
-/

namespace SaeOS.DirectMap

/-- A slot of a table: not present, a huge page, or a table with entries `β` below. -/
inductive Slot (β : Type)
  | absent
  | huge
  | table (below : ℕ → β)

namespace Slot

variable {β : Type}

/-- What a slot has at an index below, where nothing has `absent` and a huge page has `whole`. -/
def entry (absent whole : β) (i : ℕ) : Slot β → β
  | .absent => absent
  | .huge => whole
  | .table below => below i

/-- The table of a slot: `child` for one that is not present, a split for a huge page. -/
def opened (absent whole : β) : Slot β → ℕ → Option ((ℕ → β) × ℕ)
  | .table below, frames => some (below, frames)
  | .absent, frames + 1 => some (fun _ => absent, frames)
  | .huge, frames + 1 => some (fun _ => whole, frames)
  | _, 0 => none

/-- A table in the place of a slot has what the slot had. -/
theorem opened_entry {absent whole : β} {slot : Slot β} {frames frames' : ℕ} {below : ℕ → β}
    (h : slot.opened absent whole frames = some (below, frames')) (i : ℕ) :
    below i = slot.entry absent whole i := by
  cases slot with
  | table below' =>
    obtain ⟨rfl, -⟩ := Prod.mk.inj (Option.some.inj h)
    rfl
  | absent =>
    cases frames with
    | zero => contradiction
    | succ frames =>
      obtain ⟨rfl, -⟩ := Prod.mk.inj (Option.some.inj h)
      rfl
  | huge =>
    cases frames with
    | zero => contradiction
    | succ frames =>
      obtain ⟨rfl, -⟩ := Prod.mk.inj (Option.some.inj h)
      rfl

end Slot

/-- The kernel's tables: the slot of each gigabyte, below it slots of two megabytes and then entries of pages. -/
structure KernelMap where
  gigabytes : ℕ → Slot (Slot Bool)
  /-- How many frames `alloc_table` can still get. -/
  frames : ℕ

/-- Addresses from here on have no virtual address. -/
def window : ℕ := 2 ^ 47

/-- The index of an address in the page directory pointers of the whole window. -/
def pdptIndex (address : ℕ) : ℕ := address / 2 ^ 30

def pdIndex (address : ℕ) : ℕ := address / 2 ^ 21 % 512

def ptIndex (address : ℕ) : ℕ := address / 2 ^ 12 % 512

namespace KernelMap

/-- The slot of two megabytes of an address. -/
def directorySlot (s : KernelMap) (address : ℕ) : Slot Bool :=
  (s.gigabytes (pdptIndex address)).entry .absent .huge (pdIndex address)

/-- An address is direct mapped. -/
def isMapped (s : KernelMap) (address : ℕ) : Bool :=
  address < window && (s.directorySlot address).entry false true (ptIndex address)

/-- What `map_page` leaves mapped. A frame may be missing for a table; an entry that is present stays. -/
def mapPage (s : KernelMap) (address : ℕ) : KernelMap :=
  match (s.gigabytes (pdptIndex address)).opened .absent .huge s.frames with
  | none => s
  | some (pd, frames) =>
    match (pd (pdIndex address)).opened false true frames with
    | none => { gigabytes := Function.update s.gigabytes (pdptIndex address) (.table pd), frames }
    | some (pt, frames) =>
      let pd := Function.update pd (pdIndex address) (.table (Function.update pt (ptIndex address) true))
      { gigabytes := Function.update s.gigabytes (pdptIndex address) (.table pd), frames }

/-- There are frames for the tables that mapping an address needs. -/
def canMap (s : KernelMap) (address : ℕ) : Bool :=
  match (s.gigabytes (pdptIndex address)).opened .absent .huge s.frames with
  | none => false
  | some (pd, frames) => ((pd (pdIndex address)).opened false true frames).isSome

end KernelMap

open KernelMap

variable {s : KernelMap} {address other : ℕ}

/-- The three indices tell the page. -/
theorem page_eq_iff : other / 2 ^ 12 = address / 2 ^ 12 ↔
    pdptIndex other = pdptIndex address ∧ pdIndex other = pdIndex address ∧ ptIndex other = ptIndex address := by
  unfold pdptIndex pdIndex ptIndex
  omega

/-- A page directory in the place of a slot, with one slot of its own replaced. -/
theorem directorySlot_update {pd : ℕ → Slot Bool} {frames frames' : ℕ}
    (h : (s.gigabytes (pdptIndex address)).opened .absent .huge s.frames = some (pd, frames)) (slot : Slot Bool) :
    directorySlot ⟨Function.update s.gigabytes (pdptIndex address)
      (.table (Function.update pd (pdIndex address) slot)), frames'⟩ other =
      if pdptIndex other = pdptIndex address ∧ pdIndex other = pdIndex address then slot
      else s.directorySlot other := by
  rw [directorySlot]
  dsimp only
  by_cases hpdpt : pdptIndex other = pdptIndex address
  · rw [hpdpt, Function.update_self, Slot.entry]
    by_cases hpd : pdIndex other = pdIndex address
    · rw [hpd, Function.update_self, if_pos ⟨rfl, rfl⟩]
    · rw [Function.update_of_ne hpd, if_neg fun hin => hpd hin.2, Slot.opened_entry h, directorySlot, hpdpt]
  · rw [Function.update_of_ne hpdpt, if_neg fun hin => hpdpt hin.1]
    rfl

/-- Mapping maps the page if there are frames for its tables, and changes no other. -/
theorem isMapped_mapPage (s : KernelMap) (address other : ℕ) :
    (s.mapPage address).isMapped other = true ↔ s.isMapped other = true ∨
      s.canMap address = true ∧ other < window ∧ other / 2 ^ 12 = address / 2 ^ 12 := by
  unfold mapPage canMap
  rcases hpd : (s.gigabytes (pdptIndex address)).opened .absent .huge s.frames with _ | ⟨pd, frames⟩
  · simp only [hpd, Bool.false_eq_true, false_and, or_false]
  rcases hpt : (pd (pdIndex address)).opened false true frames with _ | ⟨pt, frames'⟩
  · -- the table of the gigabyte is there now, with what was there before
    have hslot := @directorySlot_update s address other pd frames frames hpd (pd (pdIndex address))
    rw [Function.update_eq_self] at hslot
    have hsame : directorySlot ⟨Function.update s.gigabytes (pdptIndex address) (.table pd), frames⟩
        other = s.directorySlot other := by
      rw [hslot]
      split
      · rename_i hin
        rw [Slot.opened_entry hpd, directorySlot, hin.1, hin.2]
      · rfl
    simp only [hpd, hpt, isMapped, hsame, Option.isSome_none, Bool.false_eq_true, false_and, or_false]
  · have hslot := @directorySlot_update s address other pd frames frames' hpd
      (.table (Function.update pt (ptIndex address) true))
    simp only [hpd, hpt, isMapped, hslot, Option.isSome_some, true_and, page_eq_iff, Bool.and_eq_true,
      decide_eq_true_eq]
    by_cases hin : pdptIndex other = pdptIndex address ∧ pdIndex other = pdIndex address
    · rw [if_pos hin, Slot.entry]
      have hold : (s.directorySlot other).entry false true (ptIndex other) = pt (ptIndex other) := by
        rw [Slot.opened_entry hpt, Slot.opened_entry hpd, directorySlot, hin.1, hin.2]
      by_cases hpage : ptIndex other = ptIndex address
      · rw [hpage, Function.update_self]
        tauto
      · rw [Function.update_of_ne hpage, hold]
        tauto
    · rw [if_neg hin]
      tauto

/-- What is mapped stays mapped. -/
theorem isMapped_mono (h : s.isMapped other = true) (address : ℕ) : (s.mapPage address).isMapped other = true :=
  (isMapped_mapPage s address other).mpr (.inl h)

end SaeOS.DirectMap
